import ServerPack.Proofs.Json.WrittenValues
import ServerPack.Proofs.Placeholder.SeparatedSubstitution
import ServerPack.Proofs.Settings.SelfReferences

/-!
Settings resolved against themselves as a tree. The references of a settings document to itself are
replaced in its text, but they are meant for its tree: a string that is a reference in the number
form is the number or boolean to which it refers, and a reference in the text form stands for a part
of its string (`Turn.resolvedString`). If references and values are plain (`PlainReferences`), their
values are put into the strings of the text as they stand (`fill_eq_splice`), and what is written
there is read as the resolved strings (`PlainString.standsFor`). So the expanded text is read as the
tree with every string resolved (`parseExpanded_of_plainReferences`).
-/

namespace ServerPack

open Json (Piece weave inQuotes decodedString decodedText mapMembers)
open Json.Scanner (decoded? between)

/-! What the strings of a turn become. -/

/-- What is meant by the parts of a string as it is written, behind `front`, which is kept
backwards: what stands between references is decoded, and references are replaced by the texts for
their paths. -/
def Segment.meantFrom (values : Text → Text) (front : Text) : List Segment → Text
  | [] => decodedText front.reverse
  | .char c :: rest => meantFrom values (c :: front) rest
  | .reference _ path :: rest => decodedText front.reverse ++ (values path ++ meantFrom values [] rest)

namespace Turn

/-- The text for a path: its fixed value, or the secret at its place among those that are asked
for. -/
def textFor (turn : Turn) (source : RandomSource) (path : Text) : Text :=
  match turn.settings.value path with
  | .ok (.text text) => text
  | .ok .secret => source.secret (turn.asked.idxOf path)
  | .error _ => []

/-- A string, as it is written, with the texts for its references. -/
def filledString (turn : Turn) (source : RandomSource) (written : Text) : Text :=
  (Segment.cut written).flatMap (Segment.fillWith (turn.textFor source))

/-- What a string that is written stands for with the texts for its references. -/
def resolvedMeaning (turn : Turn) (source : RandomSource) (written : Text) : Text :=
  Segment.meantFrom (turn.textFor source) [] (Segment.cut written)

/-- The path of a string that is a reference in the number form. -/
def numberPath? (written : Text) : Option Text := Form.number.pathAt? (inQuotes written)

/-- The value for a string as it is written: the number or boolean to which it refers as a whole, or
else a string with the texts for its references. -/
def resolvedString (turn : Turn) (source : RandomSource) (written : Text) : Json :=
  match numberPath? written with
  | some path =>
    match turn.settings.get (Settings.qualified path) with
    | .ok (.number spelling) => .number spelling
    | .ok (.bool value) => .bool value
    | _ => .null
  | none => .string (turn.resolvedMeaning source written)

/-- What is written for it. -/
def resolvedText (turn : Turn) (source : RandomSource) (written : Text) : Text :=
  match numberPath? written with
  | some path => turn.textFor source path
  | none => inQuotes (turn.filledString source written)

theorem isScalar_resolvedString (turn : Turn) (source : RandomSource) (written : Text) :
    (turn.resolvedString source written).IsScalar := by
  rw [resolvedString]
  split
  · split <;> simp [Json.IsScalar, Json.kind]
  · simp [Json.IsScalar, Json.kind]

/-- A string without a dollar sign is written as it was. -/
theorem resolvedText_of_not_mem {turn : Turn} {source : RandomSource} {written : Text} (h : '$' ∉ written) :
    turn.resolvedText source written = inQuotes written := by
  have hnumber : numberPath? written = none := by
    refine Option.eq_none_iff_forall_ne_some.2 fun path hpath => h ?_
    obtain ⟨-, htext, -⟩ := Form.pathAt?_number_eq_some_iff.1 hpath
    obtain ⟨-, -, hbegins⟩ := Form.pathAt?_eq_some_iff.1 htext
    have hmem : '$' ∈ written ++ ['"'] := hbegins.subset (by simp [Form.literal_text])
    simpa using hmem
  rw [resolvedText, hnumber]
  dsimp only
  rw [filledString, Segment.cut_of_not_mem h, Segment.fillWith_map_char]

end Turn

/-! Plain references. -/

namespace Settings

/-- The text behind `front` lies in a string that the reader takes as a value. -/
structure LiesInValue (front : Text) : Prop where
  inside : (between.feed front).2.inside
  takes : (Json.Reader.expectingBehind? (between.feed front).1).any Json.Expecting.takesValue

/-- The text behind `front` is the beginning of such a string. -/
structure OpensValue (front : Text) : Prop extends LiesInValue front where
  quote : front.getLast? = some '"'
  before : (between.feed front.dropLast).2.inside = false

/-- The value is a number, a boolean, the request for a secret or a string that stands for itself
wherever it is put. -/
def PlainValue : Json → Prop
  | .number _ | .bool _ => True
  | .string text => text = secretRequest ∨ ∀ c ∈ text, Json.Literal c ∧ c ≠ '$' ∧ c ≠ '('
  | .null | .array _ | .object _ => False

/-- The path stands for itself in a string. -/
structure PlainPath (path : Text) : Prop where
  dollar : '$' ∉ path
  quote : '"' ∉ path
  backslash : '\\' ∉ path

/-- What a dollar sign in settings begins: a request for a secret that is a whole value, a reference
in the number form that is a whole value, or a reference in the text form in a value. -/
inductive Begins (document : Document) (front text : Text) : Prop
  | request (hopens : OpensValue front) (htext : secretRequest ++ ['"'] <+: text)
  | number {path value} (hpath : Form.text.pathAt? text = some path) (hplain : PlainPath path)
    (hopens : OpensValue front)
      (htext : Placeholder.literal ⟨path, .text⟩ ++ "(number)\"".toList <+: text)
      (hvalue : document.get (qualified path) = .ok value) (hkind : value.kind ∈ [.number, .boolean])
  | text {path value} (hpath : Form.text.pathAt? text = some path) (hplain : PlainPath path)
    (hlies : LiesInValue front) (htext : ¬Placeholder.literal ⟨path, .text⟩ ++ ['('] <+: text)
      (hvalue : document.get (qualified path) = .ok value) (hfits : PlainValue value)

instance (front : Text) : Decidable (LiesInValue front) :=
  decidable_of_iff ((between.feed front).2.inside ∧
    (Json.Reader.expectingBehind? (between.feed front).1).any Json.Expecting.takesValue)
    ⟨fun h => ⟨h.1, h.2⟩, fun h => ⟨h.inside, h.takes⟩⟩

instance (front : Text) : Decidable (OpensValue front) :=
  decidable_of_iff (LiesInValue front ∧ front.getLast? = some '"' ∧
    (between.feed front.dropLast).2.inside = false)
    ⟨fun h => ⟨h.1, h.2.1, h.2.2⟩, fun h => ⟨h.toLiesInValue, h.quote, h.before⟩⟩

instance : DecidablePred PlainValue
  | .string text => decidable_of_iff (text = secretRequest ∨ text.all fun c => Json.Literal c ∧
    c ≠ '$' ∧ c ≠ '(') <| by
      simp only [PlainValue, List.all_eq_true, decide_eq_true_eq]
  | .number _ | .bool _ => .isTrue trivial
  | .null | .array _ | .object _ => .isFalse not_false

instance (path : Text) : Decidable (PlainPath path) :=
  decidable_of_iff ('$' ∉ path ∧ '"' ∉ path ∧ '\\' ∉ path)
    ⟨fun h => ⟨h.1, h.2.1, h.2.2⟩, fun h => ⟨h.dollar, h.quote, h.backslash⟩⟩

/-- What it is for a text that begins with a text form to begin a reference. -/
theorem begins_iff {document : Document} {front text : Text} : Begins document front text ↔
    OpensValue front ∧ secretRequest ++ ['"'] <+: text ∨
      (Form.text.pathAt? text).any fun path => PlainPath path ∧
      (document.get (qualified path)).toOption.any fun value =>
        (OpensValue front ∧ Placeholder.literal ⟨path, .text⟩ ++ "(number)\"".toList <+: text ∧
          value.kind ∈ [.number, .boolean]) ∨
        LiesInValue front ∧ ¬Placeholder.literal ⟨path, .text⟩ ++ ['('] <+: text ∧ PlainValue value := by
  constructor
  · intro h
    cases h with
    | request hopens htext => exact .inl ⟨hopens, htext⟩
    | number hpath hplain hopens htext hvalue hkind =>
        right
        simp only [hpath, hvalue, Except.toOption, Option.any_some, decide_eq_true_eq]
        exact ⟨hplain, .inl ⟨hopens, htext, hkind⟩⟩
    | text hpath hplain hlies htext hvalue hfits =>
        right
        simp only [hpath, hvalue, Except.toOption, Option.any_some, decide_eq_true_eq]
        exact ⟨hplain, .inr ⟨hlies, htext, hfits⟩⟩
  · rintro (⟨hopens, htext⟩ | h)
    · exact .request hopens htext
    · obtain ⟨path, hpath, hmore⟩ := (Option.any_eq_true _ _).1 h
      obtain ⟨hplain, hmore⟩ := of_decide_eq_true hmore
      obtain ⟨value, hvalue, hkinds⟩ := (Option.any_eq_true _ _).1 hmore
      have hvalue : document.get (qualified path) = .ok value := by
        cases hget : document.get (qualified path) <;> rw [hget] at hvalue <;> cases hvalue
        rfl
      rcases of_decide_eq_true hkinds with ⟨hopens, htext, hkind⟩ | ⟨hlies, htext, hfits⟩
      · exact .number hpath hplain hopens htext hvalue hkind
      · exact .text hpath hplain hlies htext hvalue hfits

instance (document : Document) (front text : Text) : Decidable (Begins document front text) :=
  decidable_of_iff _ begins_iff.symm

/-- The suffixes of a settings text as they are written. -/
def writtenSuffixes (raw : Text) : List Text :=
  match Json.readWritten? raw with
  | some (.object root) => ((Dictionary.get? sectionKey root).map suffixTexts).getD []
  | _ => []

/-- All references of settings to themselves are plain, and none in the number form is a suffix. -/
structure PlainReferences (raw : Text) (document : Document) : Prop where
  begins (front rest : Text) : raw = front ++ '$' :: rest → Begins document front ('$' :: rest)
  suffixes : ∀ written ∈ writtenSuffixes raw, Turn.numberPath? written = none

theorem forall_begins_iff {raw : Text} {document : Document} :
    ((List.range raw.length).all fun n => raw[n]? = some '$' → Begins document (raw.take n) (raw.drop n)) ↔
      ∀ front rest, raw = front ++ '$' :: rest → Begins document front ('$' :: rest) := by
  simp only [List.all_eq_true, List.mem_range, decide_eq_true_eq]
  constructor
  · rintro h front rest rfl
    have hfront := h front.length (by simp) (by simp)
    rwa [List.drop_left, List.take_left] at hfront
  · intro h n hn hdollar
    obtain ⟨_, heq⟩ := List.getElem?_eq_some_iff.1 hdollar
    rw [List.drop_eq_getElem_cons hn, heq]
    refine h (raw.take n) (raw.drop (n + 1)) ?_
    rw [← heq, ← List.drop_eq_getElem_cons hn, List.take_append_drop]

instance (raw : Text) (document : Document) : Decidable (PlainReferences raw document) :=
  decidable_of_iff (((List.range raw.length).all fun n => raw[n]? = some '$' →
      Begins document (raw.take n) (raw.drop n)) ∧ ∀ written ∈ writtenSuffixes raw,
        Turn.numberPath? written = none)
    ⟨fun h => ⟨forall_begins_iff.1 h.1, h.2⟩, fun h => ⟨forall_begins_iff.2 h.begins, h.suffixes⟩⟩

end Settings

/-! Strings with references. -/

namespace Segment

variable {values : Text → Text}

/-- Where references can stand in a string, texts that stand for themselves can stand in their
places. -/
theorem decoded?_flatMap_fillWith {segments : List Segment} {front : Text}
    (h : (decoded? (front.reverse ++ render segments)).isSome)
    (hreferences : ∀ form path, .reference form path ∈ segments →
      form = .text ∧ '"' ∉ path ∧ '\\' ∉ path ∧ ∀ c ∈ values path, Json.Literal c) :
    decoded? (front.reverse ++ segments.flatMap (fillWith values)) = some
      (meantFrom values front segments) := by
  induction segments generalizing front with
  | nil =>
      obtain ⟨meant, hmeant⟩ := Option.isSome_iff_exists.1 h
      rw [render, List.flatMap_nil, List.append_nil] at hmeant
      rw [List.flatMap_nil, List.append_nil, meantFrom, decodedText, hmeant]
      rfl
  | cons segment rest ih =>
      obtain ⟨hsegment, hrest⟩ : _ ∧ _ := ⟨hreferences, fun form path hmem =>
        hreferences form path (List.mem_cons_of_mem segment hmem)⟩
      rw [render_cons] at h
      rw [List.flatMap_cons]
      cases segment with
      | char c =>
          rw [text, ← List.append_assoc, ← List.reverse_cons] at h
          rw [fillWith, ← List.append_assoc, ← List.reverse_cons]
          exact ih h hrest
      | reference form path =>
          obtain ⟨rfl, hquote, hback, hvalue⟩ := hreferences form path List.mem_cons_self
          rw [text, Form.literal_text, List.cons_append] at h
          have hfront := Json.Scanner.isSome_decoded?_of_dollar h
          have hliteral := (Json.Scanner.isSome_decoded?_append_iff hfront _).1 h
          rw [← List.cons_append] at hliteral
          obtain ⟨-, hbehind⟩ := Json.Scanner.literal_of_isSome_decoded? hliteral (by simp [hquote])
            (by simp [hback])
          obtain ⟨meant, hmeant⟩ := Option.isSome_iff_exists.1 hfront
          rw [Json.Scanner.decoded?_append hmeant, fillWith,
            Json.Scanner.decoded?_append (Json.Scanner.decoded?_of_literal hvalue), meantFrom,
              decodedText, hmeant]
          have hfilled := @ih [] hbehind hrest
          rw [List.reverse_nil, List.nil_append] at hfilled
          rw [hfilled]
          rfl

end Segment

namespace Json

/-- A string that begins with a text and a quote is that text. -/
theorem eq_of_quote_begins {text source rest : Text} (h : text ++ ['"'] <+: source ++ '"' :: rest)
    (hsource : (decoded? source).isSome) (hquote : '"' ∉ text) (hback : '\\' ∉ text) : source = text := by
  have hends : source ++ ['"'] <+: source ++ '"' :: rest := ⟨rest, by simp⟩
  rcases List.prefix_or_prefix_of_prefix h hends with hbegins | hbegins
  · rcases List.prefix_concat_iff.1 hbegins with heq | ⟨more, rfl⟩
    · exact (List.append_inj' heq rfl).1.symm
    · rw [List.append_assoc] at hsource
      have hmore := (Scanner.literal_of_isSome_decoded? hsource hquote hback).2
      cases hmore
  · rcases List.prefix_concat_iff.1 hbegins with heq | hinside
    · exact (List.append_inj' heq rfl).1
    · exact absurd (hinside.subset (by simp)) hquote

/-- A text without quotes that begins what a string begins lies in the string. -/
theorem prefix_of_prefix_quote {text source rest : Text} (h : text <+: source ++ '"' :: rest)
    (hquote : '"' ∉ text) :
    text <+: source := by
  rcases List.prefix_or_prefix_of_prefix h
    (List.prefix_append source ('"' :: rest)) with hbegins | ⟨more, rfl⟩
  · exact hbegins
  · rw [List.prefix_append_right_inj] at h
    cases more with
    | nil => simp
    | cons c more =>
        obtain rfl : c = '"' := (List.cons_prefix_cons.1 h).1
        exact absurd (by simp) hquote

end Json

namespace Settings

variable {document : Document} {raw : Text}

/-- A path that is plain and leads to a plain value. -/
def GoodPath (document : Document) (path : Text) : Prop :=
  PlainPath path ∧ ∃ value, document.get (qualified path) = .ok value ∧ PlainValue value

/-- A string, as it is written, in which all references are plain. -/
inductive PlainString (document : Document) (source : Text) : Prop
  | request (hsource : source = secretRequest)
  | number {path value} (hsource : source = Placeholder.literal ⟨path, .text⟩ ++ "(number)".toList)
      (hpath : Segment.IsPath path) (hplain : PlainPath path)
      (hvalue : document.get (qualified path) = .ok value) (hkind : value.kind ∈ [.number, .boolean])
  | text (hrefer : Segment.AllRefer (GoodPath document) source)

/-- The beginning of a value lies at the beginning of its string. -/
theorem OpensValue.first_eq_nil {front first rest : Text} (h : OpensValue (front ++ first))
    (hfront : (between.feed front).2 = .string 0 []) (hfirst : (decoded? (first ++ rest)).isSome) :
    first = [] := by
  rcases List.eq_nil_or_concat first with rfl | ⟨first, c, rfl⟩
  · rfl
  · have hbefore := h.before
    obtain ⟨value, hvalue⟩ := Option.isSome_iff_exists.1 hfirst
    have hfeed := congrArg Prod.fst ((Json.Scanner.decoded?_eq_some_iff []).1 hvalue)
    rw [List.concat_eq_append, List.append_assoc, Json.Scanner.feed_append] at hfeed
    have hinside := @Json.Scanner.inside_of_feed (.string 0 []) rfl first (List.append_eq_nil_iff.1 hfeed).1
    rw [List.concat_eq_append, ← List.append_assoc, List.dropLast_concat, Json.Scanner.feed_append,
      hfront, hinside]
      at hbefore
    cases hbefore

/-- The strings of settings with plain references are plain, and those with a dollar sign are
values. -/
theorem PlainReferences.plainString (h : PlainReferences raw document) {before after : List Piece}
    {piece : Piece} {tail : Text} (hraw : raw = weave (before ++ piece :: after) tail)
    (hbefore : ∀ piece ∈ before, piece.Proper) (hpiece : piece.Proper)
    (hstray : .stray ∉ (between.feed (weave before (piece.lead ++ ['"']))).1) :
    PlainString document piece.source ∧ ('$' ∈ piece.source → ∀ next,
      Json.Reader.Runs .json (.reading [] .value)
        (between.feed (weave before (piece.lead ++ ['"']))).1 next →
        next.TakesValue) := by
  have hfront := Json.feed_weave_lead rfl hbefore hpiece.quote hstray
  have hbegins : ∀ first rest, piece.source = first ++ '$' :: rest → Begins document
      (weave before (piece.lead ++ ['"']) ++ first) ('$' :: rest ++ '"' :: weave after tail) := by
    intro first rest hsource
    refine h.begins _ _ ?_
    rw [hraw, Json.weave_weave, hsource, List.append_assoc, List.append_assoc]
    rfl
  constructor
  · by_cases hrefer : Segment.AllRefer (GoodPath document) piece.source
    · exact .text hrefer
    · simp only [Segment.AllRefer, not_forall] at hrefer
      obtain ⟨first, rest, hsource, hnot⟩ := hrefer
      have hdecoded := hpiece.source
      rw [hsource] at hdecoded ⊢
      cases hbegins first rest hsource with
      | request hopens htext =>
          obtain rfl := hopens.first_eq_nil hfront hdecoded
          exact .request (Json.eq_of_quote_begins htext hdecoded (by decide) (by decide))
      | @number path value hpath hplain hopens htext hvalue hkind =>
          obtain rfl := hopens.first_eq_nil hfront hdecoded
          have hmark : "(number)\"".toList = "(number)".toList ++ ['"'] := by decide
          rw [hmark, ← List.append_assoc] at htext
          refine .number (Json.eq_of_quote_begins htext hdecoded ?_ ?_)
            (Segment.isPath_of_pathAt? hpath hplain.dollar) hplain hvalue hkind
          · simpa using Form.quote_not_mem_literal hplain.quote
          · simp [Form.literal_text, hplain.backslash]
      | @text path value hpath hplain _ htext hvalue hfits =>
          obtain ⟨hne, hparen, hbegins⟩ := Form.pathAt?_eq_some_iff.1 hpath
          refine absurd ⟨path, Form.pathAt?_eq_some_iff.2 ⟨hne, hparen, ?_⟩, hplain.dollar,
            ⟨hplain, value, hvalue, hfits⟩, ?_⟩ hnot
          · exact Json.prefix_of_prefix_quote hbegins (Form.quote_not_mem_literal hplain.quote)
          · exact fun hparen => htext (hparen.trans (List.prefix_append ..))
  · intro hmem next hnext
    obtain ⟨first, rest, hsource⟩ := List.append_of_mem hmem
    have hlies : LiesInValue (weave before (piece.lead ++ ['"']) ++ first) := by
      cases hbegins first rest hsource with
      | request hopens _ => exact hopens.toLiesInValue
      | number _ _ hopens _ _ _ => exact hopens.toLiesInValue
      | text _ _ hlies _ _ _ => exact hlies
    exact Json.takesValue_of_piece hbefore hpiece hstray hsource hlies.takes hnext

/-- A plain string is a reference in the number form, or it is cut into parts that stand apart and
refer to good paths. -/
theorem PlainString.cut {source : Text} (h : PlainString document source) :
    (∃ path value, Turn.numberPath? source = some path ∧
      inQuotes source = Placeholder.literal ⟨path, .number⟩ ∧
        Segment.IsPath path ∧ PlainPath path ∧ document.get (qualified path) = .ok value ∧
        value.kind ∈ [.number, .boolean]) ∨
      Turn.numberPath? source = none ∧ ∀ {rest}, Segment.Separated rest → Segment.Clear rest →
        Segment.Separated (Segment.cut source ++ rest) ∧
        ∀ form path, .reference form path ∈ Segment.cut source →
          form = .text ∧ Segment.IsPath path ∧ GoodPath document path := by
  cases h with
  | request hsource =>
      refine .inr ⟨hsource ▸ (by decide), fun {rest} hrest _ => ?_⟩
      have hcut : Segment.cut secretRequest =
          .char '$' :: .char '(' :: .char 'v' :: ("elocity.secret)".toList).map .char := by decide
      rw [hsource, hcut]
      refine ⟨?_, by simp⟩
      have hbehind : Segment.Separated (("elocity.secret)".toList).map .char ++ rest) :=
        .append_map_char (by decide) hrest
      refine .foreign (by decide) (.char (fun heq => ?_) (.char (fun heq => ?_) hbehind)) <;>
        exact absurd heq (by decide)
  | @number path value hsource hpath hplain hvalue hkind =>
      have hquotes : inQuotes source = Placeholder.literal ⟨path, .number⟩ := by
        have hmark : "(number)\"".toList = "(number)".toList ++ ['"'] := by decide
        rw [Form.literal_number, hmark, hsource, inQuotes, ← List.append_assoc]
        rfl
      refine .inl ⟨path, value, ?_, hquotes, hpath, hplain, hvalue, hkind⟩
      rw [Turn.numberPath?, hquotes]
      exact Form.pathAt?_eq_some_iff.2 ⟨hpath.ne_nil, hpath.closing, List.prefix_rfl⟩
  | text hrefer =>
      refine .inr ⟨Option.eq_none_iff_forall_ne_some.2 fun path hpath => ?_, Segment.separated_cut hrefer⟩
      obtain ⟨-, htext, hmark⟩ := Form.pathAt?_number_eq_some_iff.1 hpath
      -- The string begins with a text form, which no parenthesis follows.
      obtain ⟨hne, hparen, hbegins⟩ := Form.pathAt?_eq_some_iff.1 htext
      obtain ⟨first, rest, rfl⟩ : ∃ first rest, source = first :: rest := by
        cases source with
        | nil =>
            rw [Form.literal_text] at hbegins
            cases (List.cons_prefix_cons.1 hbegins).1
        | cons first rest => exact ⟨first, rest, rfl⟩
      obtain rfl : first = '$' := by
        rw [Form.literal_text] at hbegins
        exact (List.cons_prefix_cons.1 hbegins).1.symm
      obtain ⟨path', hpath', hdollar, ⟨hplain, -⟩, hnot⟩ := hrefer [] rest rfl
      obtain ⟨hne', hparen', hbegins'⟩ := Form.pathAt?_eq_some_iff.1 hpath'
      obtain rfl : path' = path := Option.some.inj <|
        (Form.pathAt?_eq_some_iff.2 ⟨hne', hparen',
          hbegins'.trans (List.prefix_append ..)⟩).symm.trans htext
      refine hnot (@Json.prefix_of_prefix_quote _ _ [] ?_
        (by simpa using Form.quote_not_mem_literal hplain.quote))
      exact ((List.prefix_append_right_inj _).2 (by decide)).trans hmark

end Settings

/-! The parts of a text of pieces. -/

/-- The parts of a string with its quotes. -/
def stringSegments (source : Text) : List Segment :=
  match Turn.numberPath? source with
  | some path => [.reference .number path]
  | none => .char '"' :: (Segment.cut source ++ [.char '"'])

/-- The parts of a text that consists of pieces. -/
def segmentsOf : List Piece → Text → List Segment
  | [], tail => tail.map .char
  | piece :: rest, tail => piece.lead.map .char ++ (stringSegments piece.source ++ segmentsOf rest tail)

/-- With values in place of references it is the text with what is written for its strings. -/
theorem flatMap_segmentsOf (turn : Turn) (source : RandomSource) (pieces : List Piece) (tail : Text) :
    (segmentsOf pieces tail).flatMap (Segment.fillWith (turn.textFor source)) =
      Json.splice (turn.resolvedText source) pieces tail := by
  have hchars := Segment.fillWith_map_char (turn.textFor source)
  induction pieces with
  | nil => exact hchars tail
  | cons piece rest ih =>
      have hstring : (stringSegments piece.source).flatMap (Segment.fillWith (turn.textFor source)) =
          turn.resolvedText source piece.source := by
        rw [stringSegments, Turn.resolvedText]
        cases Turn.numberPath? piece.source with
        | some path => exact List.append_nil _
        | none =>
            dsimp only
            rw [List.flatMap_cons, List.flatMap_append]
            rfl
      rw [segmentsOf, Json.splice, List.flatMap_append, List.flatMap_append, hchars, hstring, ih]

namespace Settings

variable {document : Document} {raw : Text}

/-- The parts of a plain string stand apart from each other and from what comes behind, and refer to
good paths. -/
theorem PlainString.separated {source : Text} (h : PlainString document source) {segments : List Segment}
    (hsegments : Segment.Separated segments) (hclear : Segment.Clear segments) :
    Segment.render (stringSegments source) = inQuotes source ∧
    Segment.Separated (stringSegments source ++ segments) ∧
      ∀ form path, .reference form path ∈ stringSegments source → Segment.IsPath path ∧
      GoodPath document path := by
  rw [stringSegments]
  rcases h.cut with ⟨path, value, hnumber, hquotes, hpath, hplainPath, hvalue, hkind⟩ | ⟨hnumber, hcut⟩
  · rw [hnumber, hquotes]
    refine ⟨List.append_nil _, .reference hpath hclear hsegments, fun form path' hmem => ?_⟩
    cases List.mem_singleton.1 hmem
    refine ⟨hpath, hplainPath, value, hvalue, ?_⟩
    cases value <;> trivial
  · rw [hnumber]
    dsimp only
    have hquote : Segment.Separated (.char '"' :: segments) := .char (by simp) hsegments
    obtain ⟨hcutSeparated, hcutGood⟩ := hcut hquote (by simp [Segment.Clear])
    refine ⟨?_, ?_, fun form path hmem => ?_⟩
    · rw [Segment.render_cons, Segment.render_append, Segment.render_cut]
      rfl
    · rw [List.cons_append, List.append_assoc]
      exact .char (by simp) hcutSeparated
    · simp only [List.mem_cons, List.mem_append, List.not_mem_nil, reduceCtorEq, false_or, or_false] at hmem
      exact (hcutGood form path hmem).2

/-- If the strings of a text are plain, its parts stand apart and refer to good paths. -/
theorem separated_segmentsOf {pieces : List Piece} {tail : Text} (hproper : ∀ piece ∈ pieces, piece.Proper)
    (htail : '$' ∉ tail) (hstray : .stray ∉ between.scan (weave pieces tail))
    (hplain : ∀ piece ∈ pieces, PlainString document piece.source) :
    Segment.render (segmentsOf pieces tail) = weave pieces tail ∧
    Segment.Separated (segmentsOf pieces tail) ∧
      ∀ form path, .reference form path ∈ segmentsOf pieces tail → Segment.IsPath path ∧
      GoodPath document path := by
  induction pieces with
  | nil =>
      refine ⟨Segment.render_map_char tail, ?_, by simp [segmentsOf]⟩
      have hseparated := Segment.Separated.append_map_char htail .nil
      rwa [List.append_nil] at hseparated
  | cons piece pieces ih =>
      obtain ⟨hpiece, hpieces⟩ := List.forall_mem_cons.1 hproper
      obtain ⟨hplainPiece, hplainPieces⟩ := List.forall_mem_cons.1 hplain
      obtain ⟨meant, hmeant⟩ := Option.isSome_iff_exists.1 hpiece.source
      have hlead : .stray ∉ (between.feed (piece.lead ++ ['"'])).1 :=
        Json.not_stray_lead fun hmem => hstray (List.mem_append_left _ hmem)
      rw [weave, Json.Scanner.scan, Json.feed_piece rfl hpiece.quote hmeant hlead,
        List.append_assoc, List.mem_append,
        not_or, List.cons_append, List.mem_cons, not_or] at hstray
      have hrest : .stray ∉ between.scan (weave pieces tail) := hstray.2.2
      obtain ⟨hrender, hseparated, hgood⟩ := ih hpieces hrest hplainPieces
      have hclear : Segment.Clear (segmentsOf pieces tail) := by
        refine Segment.clear_of_not_begins ?_
        rw [hrender]
        rintro ⟨more, hmore⟩
        rw [← hmore] at hrest
        exact hrest List.mem_cons_self
      obtain ⟨hstring, hstringSeparated, hstringGood⟩ := hplainPiece.separated hseparated hclear
      refine ⟨?_, .append_map_char hpiece.dollar hstringSeparated, fun form path hmem => ?_⟩
      · rw [segmentsOf, Segment.render_append, Segment.render_append, Segment.render_map_char,
          hstring, hrender, weave, inQuotes, List.append_assoc]
        rfl
      · rw [segmentsOf, List.mem_append, List.mem_append] at hmem
        rcases hmem with hmem | hmem | hmem
        · simp at hmem
        · exact hstringGood form path hmem
        · exact hgood form path hmem

/-! Values. -/

/-- The text for a good path consists of characters that stand for themselves and begin no
reference. -/
theorem GoodPath.textFor (hparse : parse raw = .ok document) {path : Text} (h : GoodPath document path)
    (source : RandomSource) :
    ∀ c ∈ Turn.textFor ⟨document, raw⟩ source path, Json.Literal c ∧ c ≠ '$' ∧ c ≠ '(' := by
  have halphanum : ∀ {c : Char}, c.isAlphanum → Json.Literal c ∧ c ≠ '$' ∧ c ≠ '(' := by
    intro c hc
    refine ⟨Json.literal_of_isAlphanum hc, ?_, ?_⟩ <;> rintro rfl <;> exact absurd hc (by decide)
  have hall : ∀ {text : Text}, text.all Char.isAlphanum = true → ∀ c ∈ text, Json.Literal c ∧
      c ≠ '$' ∧ c ≠ '(' :=
    fun htext c hc => halphanum (List.all_eq_true.1 htext c hc)
  obtain ⟨-, value, hget, hfits⟩ := h
  have hvalue : ∀ {found}, valueOf? value = some found → document.value path = .ok found := fun hfound =>
    Document.value_eq_ok_iff.2 ⟨value, hget, hfound⟩
  rw [Turn.textFor]
  cases value with
  | null => cases hfits
  | array items => cases hfits
  | object members => cases hfits
  | bool b =>
      cases b <;> rw [hvalue rfl] <;> dsimp only
      · exact @hall "false".toList (by decide)
      · exact @hall "true".toList (by decide)
  | number spelling =>
      rw [hvalue rfl]
      cases Document.spelled_of_get hparse hget with
      | number hspelling =>
          intro c hc
          have hmark := hspelling.mark c hc
          refine ⟨Json.Number.literal_of_mark hmark, ?_, ?_⟩ <;> rintro rfl <;> exact absurd hmark
            (by decide)
  | string text =>
      by_cases hrequest : text = secretRequest
      · rw [hvalue (by rw [valueOf?, if_pos hrequest])]
        exact fun c hc => halphanum (RandomSource.isAlphanum_of_mem_secret _ hc)
      · rw [hvalue (by rw [valueOf?, if_neg hrequest])]
        exact hfits.resolve_left hrequest

theorem GoodPath.knows {path : Text} (h : GoodPath document path) : document.Knows path := by
  obtain ⟨-, value, hget, hfits⟩ := h
  refine Document.knows_of_get hget ?_
  cases value <;> first | (cases hfits; done) | simp [Json.kind]

/-- What has been resolved is the text for its path. -/
theorem value_eq_textFor {source left : RandomSource} {resolved : List Resolved}
    (hresolved : document.resolveIn raw source = (.ok resolved, left)) {entry : Resolved}
    (hentry : entry ∈ resolved) (hpath : entry.path ∈ Placeholder.pathsIn raw) :
    entry.value = Turn.textFor ⟨document, raw⟩ source entry.path := by
  obtain ⟨-, hgets⟩ := @Turn.gets_of_resolveIn ⟨document, raw⟩ _ _ _ hresolved
  rw [Turn.textFor]
  by_cases hasks : document.AsksForSecret entry.path
  · rw [Document.value_eq_secret_iff.2 hasks]
    exact (hgets entry hentry).drawn (List.getElem?_idxOf (Turn.mem_asked.2 ⟨hpath, hasks⟩))
  · rw [(hgets entry hentry).fixed hasks]

/-- What is resolved for settings in which all strings are plain puts its value in place of every
reference. -/
theorem fill_eq_splice (hparse : parse raw = .ok document) {pieces : List Piece} {tail : Text}
    (hraw : raw = weave pieces tail) (hproper : ∀ piece ∈ pieces, piece.Proper) (htail : '$' ∉ tail)
    (hplain : ∀ piece ∈ pieces, PlainString document piece.source) (source : RandomSource) :
    ∃ resolved left, document.resolveIn raw source = (.ok resolved, left) ∧
      fill resolved raw = Json.splice (Turn.resolvedText ⟨document, raw⟩ source) pieces tail := by
  have hstray := (Json.read_eq_ok_iff.1 (parse_eq_ok_iff.1 hparse).1).not_stray
  obtain ⟨hrender, hseparated, hgood⟩ := separated_segmentsOf hproper htail (hraw ▸ hstray) hplain
  rw [← hraw] at hrender
  have hoccurs : ∀ {form path}, ⟨path, form⟩ ∈ Placeholder.occurringIn raw ↔
      .reference form path ∈ segmentsOf pieces tail := by
    intro form path
    rw [← hrender]
    exact Segment.mem_occurringIn_render_iff hseparated
  have hpaths : ∀ path ∈ Placeholder.pathsIn raw, Segment.IsPath path ∧ GoodPath document path := by
    intro path hmem
    obtain ⟨form, hform⟩ := Placeholder.mem_pathsIn.1 hmem
    exact hgood form path (hoccurs.1 hform)
  obtain ⟨resolved, left, hresolved⟩ := Document.exists_resolveIn
    (fun path hpath => (hpaths path hpath).2.knows) source
  refine ⟨resolved, left, hresolved, ?_⟩
  rw [← flatMap_segmentsOf]
  refine (congrArg (fill resolved) hrender.symm).trans (Segment.fill_render hseparated ?_ ?_)
  · intro entry hentry
    have hpath := (Document.mem_pathsIn_iff_of_resolveIn hresolved).2 ⟨entry, hentry, rfl⟩
    have hforms := Document.forms_of_resolveIn hresolved hentry
    have hvalue := value_eq_textFor hresolved hentry hpath
    have htext := (hpaths _ hpath).2.textFor hparse source
    refine ⟨(hpaths _ hpath).1, ⟨fun form => ⟨entry.path, form⟩ ∈ Placeholder.occurringIn raw, hforms⟩,
      fun form hreference => ?_, hvalue, ?_⟩
    · rw [hforms]
      exact List.mem_filter.2 ⟨by cases form <;> simp, decide_eq_true (hoccurs.2 hreference)⟩
    · rw [hvalue]
      exact ⟨fun hmem => (htext _ hmem).2.1 rfl, fun hmem => (htext _ hmem).2.2 rfl⟩
  · intro form path hreference
    exact (Document.mem_pathsIn_iff_of_resolveIn hresolved).1
      (Placeholder.mem_pathsIn.2 ⟨form, hoccurs.2 hreference⟩)

/-- What is written for a plain string stands for the value that it becomes. -/
theorem PlainString.standsFor (hparse : parse raw = .ok document) {written : Text}
    (h : PlainString document written) (hdecoded : (decoded? written).isSome) (source : RandomSource) :
    Json.StandsFor (Turn.resolvedText ⟨document, raw⟩ source written)
      (Turn.resolvedString ⟨document, raw⟩ source written) := by
  rw [Turn.resolvedText, Turn.resolvedString]
  rcases h.cut with ⟨path, value, hnumber, -, -, -, hget, hkind⟩ | ⟨hnumber, hcut⟩
  · have hvalue : ∀ {found}, valueOf? value = some found → document.value path = .ok found := fun hfound =>
      Document.value_eq_ok_iff.2 ⟨value, hget, hfound⟩
    rw [hnumber]
    dsimp only
    rw [hget, Turn.textFor]
    cases value with
    | bool b =>
        cases b <;> rw [hvalue rfl]
        · exact @Json.StandsFor.scalar "false".toList _ (.bool false) (by decide) rfl fun _ _ => rfl
        · exact @Json.StandsFor.scalar "true".toList _ (.bool true) (by decide) rfl fun _ _ => rfl
    | number spelling =>
        rw [hvalue rfl]
        cases Document.spelled_of_get hparse hget with
        | number hspelling =>
            exact .scalar (fun hmem => (hspelling.literal _ hmem).1 rfl) rfl fun rest hrest =>
              Json.Scanner.scan_spelling hspelling hrest
    | _ => simp [Json.kind] at hkind
  · rw [hnumber]
    dsimp only
    obtain ⟨-, hreferences⟩ := @hcut [] .nil trivial
    have hmeant : decoded? (Turn.filledString ⟨document, raw⟩ source written) =
        some (Turn.resolvedMeaning ⟨document, raw⟩ source written) := by
      refine @Segment.decoded?_flatMap_fillWith _ _ [] ?_ fun form path hmem => ?_
      · rwa [List.reverse_nil, List.nil_append, Segment.render_cut]
      · obtain ⟨hform, -, hgood⟩ := hreferences form path hmem
        exact ⟨hform, hgood.1.quote, hgood.1.backslash, fun c hc => (hgood.textFor hparse source c hc).1⟩
    exact .string rfl hmeant rfl

/-! The tree. -/

/-- The settings document that is read from an expanded text with plain references is that of the
text itself, with every string resolved as it is written. -/
theorem parseExpanded_of_plainReferences (hparse : parse raw = .ok document)
    (h : PlainReferences raw document) (session : Session) :
    ∃ written, Json.readWritten? raw = some (.object written) ∧
      document.root = mapMembers decodedString written ∧
      ((parseExpanded raw).outcome session).1 = .ok
        ⟨mapMembers (Turn.resolvedString ⟨document, raw⟩ session.randomness) written,
          (writtenSuffixes raw).map (Turn.resolvedMeaning ⟨document, raw⟩ session.randomness)⟩ := by
  obtain ⟨hread, part, hpart, hsection⟩ := parse_eq_ok_iff.1 hparse
  have hstray := (Json.read_eq_ok_iff.1 hread).not_stray
  obtain ⟨pieces, tail, hraw, hproper, hquote, hdollar⟩ := @Json.exists_weave between rfl raw hstray
  have hstrings : ∀ before piece after, pieces = before ++ piece :: after →
      PlainString document piece.source ∧ ('$' ∈ piece.source → ∀ next,
        Json.Reader.Runs .json (.reading [] .value)
          (between.feed (weave before (piece.lead ++ ['"']))).1 next →
          next.TakesValue) := by
    rintro before piece after rfl
    refine h.plainString hraw (fun piece hmem => hproper piece (by simp [hmem]))
        (hproper piece (by simp)) fun hmem =>
      hstray (List.mem_append_left _ ?_)
    rw [hraw, Json.weave_weave, Json.Scanner.feed_append]
    exact List.mem_append_left _ hmem
  have hplain : ∀ piece ∈ pieces, PlainString document piece.source := by
    intro piece hmem
    obtain ⟨before, after, heq⟩ := List.append_of_mem hmem
    exact (hstrings before piece after heq).1
  obtain ⟨resolved, left, hresolved, hfill⟩ :=
    fill_eq_splice hparse hraw hproper hdollar hplain session.randomness
  obtain ⟨written, hwritten, hdecoded, hspliced⟩ := Json.exists_read_splice hproper hquote
    (fun piece hmem => (hplain piece hmem).standsFor hparse (hproper piece hmem).source session.randomness)
    (hraw ▸ hread) fun before piece after heq hne => (hstrings before piece after heq).2 <|
      Classical.byContradiction fun hmem => hne (Turn.resolvedText_of_not_mem hmem)
  cases written with
  | object written =>
      obtain hroot : document.root = mapMembers decodedString written := Json.object.inj hdecoded
      rw [← hraw] at hwritten
      refine ⟨written, hwritten, hroot, ?_⟩
      rw [hroot, Json.get?_mapMembers, Option.map_eq_some_iff] at hpart
      obtain ⟨writtenPart, hwrittenPart, rfl⟩ := hpart
      have hsuffixes : writtenSuffixes raw = suffixTexts writtenPart := by
        rw [writtenSuffixes, hwritten]
        dsimp only
        rw [hwrittenPart]
        rfl
      rw [outcome_parseExpanded, worked, expandFrom_of_resolveIn hparse hresolved, hfill, hsuffixes]
      refine parse_eq_ok_iff.2 ⟨hspliced, writtenPart.mapStrings _,
        by rw [Json.get?_mapMembers, hwrittenPart]; rfl, ?_⟩
      refine readSection_mapStrings (fun _ => by simp [Json.IsScalar, decodedString, Json.kind])
        (Turn.isScalar_resolvedString _ _) hsection (fun _ _ => rfl) fun suffix hmem => ?_
      rw [Turn.resolvedString, h.suffixes suffix (hsuffixes ▸ hmem)]
  | _ => cases hdecoded

/-- Settings with references in both forms to a number, a boolean, a string and a request for a
secret, and with a dollar sign that is written as an escape. -/
def plainRaw : Text :=
  ("\x7b\"placeholder\":\x7b\"data\":\x7b\"b\":true,\"n\":1.50,\"r\":\"$(velocity.secret)\",\"s\":\"a \u00e9\"," ++
    "\"v\":\"$(mcp.n)(number)\",\"w\": \"$(mcp.b)(number)\",\"x\":\"\\u0024(mcp.n) $(mcp.n)$(mcp.r)\\n$(mcp.s)\"\x7d," ++
    "\"suffixes\":[\"-$(mcp.b)\"]\x7d\x7d").toList

theorem parseExpanded_of_plainReferences_scalars : ∃ settings,
    ((parseExpanded plainRaw).outcome (Build.sampleSession "")).1 = .ok settings ∧
      settings.suffixes = ["-true".toList] := by
  have hparse : parse plainRaw = .ok (settingsOf plainRaw) := parse_eq_settingsOf (by decide +kernel)
  obtain ⟨written, -, -, hsettings⟩ :=
    parseExpanded_of_plainReferences hparse (by decide +kernel) (Build.sampleSession "")
  have hsuffixes : (writtenSuffixes plainRaw).map (Turn.resolvedMeaning ⟨settingsOf plainRaw, plainRaw⟩
      (Build.sampleSession "").randomness) = ["-true".toList] := by decide +kernel
  refine ⟨_, hsettings, ?_⟩
  dsimp only
  exact hsuffixes

end Settings

end ServerPack
