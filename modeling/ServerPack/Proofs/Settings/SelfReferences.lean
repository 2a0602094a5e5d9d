import ServerPack.Proofs.Build.Secrets
import ServerPack.Proofs.Json.NumberSpelling
import ServerPack.Proofs.Json.StringPieces
import ServerPack.Proofs.Placeholder.SeparatedBody
import ServerPack.Proofs.Settings.DocumentShape
import ServerPack.Proofs.Settings.InMemoryExpansion

/-!
Settings that can still be read when they have been resolved against themselves. What stands in a
string can be replaced by any text that can stand there, so the strings of an expanded document
remain strings (`fill_weave`), and where only values have changed it is a document of the same shape
(`exists_parse_fill`). A value is put into its place as it is, without escapes:
`expanded_of_selfReferences` says of which values the document stays readable, and
`expanded_unreadable` that a quote is none of them.
-/

namespace ServerPack

open Json (Piece weave)
open Json.Scanner (decoded? between)

/-! Filling strings. -/

/-- The path stands only in its text form, and what is written for it and instead of it can stand in
a string. -/
structure Resolved.FitsString (entry : Resolved) : Prop where
  forms : entry.forms = [.text]
  pattern : (decoded? (Placeholder.literal ⟨entry.path, .text⟩)).isSome
  value : (decoded? entry.value).isSome

theorem Resolved.replaceIn_of_text {entry : Resolved} (h : entry.forms = [.text]) (body : Text) :
    entry.replaceIn body = Text.replaceAll (Placeholder.literal ⟨entry.path, .text⟩) entry.value body := by
  rw [replaceIn, h, List.foldl_cons, List.foldl_nil]

theorem fill_cons (entry : Resolved) (resolved : List Resolved) (body : Text) :
    fill (entry :: resolved) body = fill resolved (entry.replaceIn body) := rfl

/-- Placeholders are filled in one string after the other, and the strings remain strings. -/
theorem fill_weave {resolved : List Resolved} (h : ∀ entry ∈ resolved, entry.FitsString)
    {pieces : List Piece} (hproper : ∀ piece ∈ pieces, piece.Proper) {tail : Text} (htail : '$' ∉ tail) :
    fill resolved (weave pieces tail) = weave (pieces.map (Piece.rewrite (fill resolved))) tail ∧
      ∀ piece ∈ pieces, (piece.rewrite (fill resolved)).Proper := by
  induction resolved generalizing pieces with
  | nil =>
      have hself : pieces.map (Piece.rewrite (fill [])) = pieces := List.map_id _
      exact ⟨by rw [hself]; rfl, hproper⟩
  | cons entry resolved ih =>
      obtain ⟨hentry, hresolved⟩ := List.forall_mem_cons.1 h
      have hpattern := hentry.pattern
      have hreplace : entry.replaceIn = Text.replaceAll
          (Placeholder.literal ⟨entry.path, .text⟩) entry.value :=
        funext (Resolved.replaceIn_of_text hentry.forms)
      rw [Form.literal_text] at hpattern hreplace
      have hweave := Json.replaceAll_weave hpattern hentry.value hproper htail
      have hproper' : ∀ piece ∈ pieces.map (Piece.rewrite entry.replaceIn), piece.Proper := by
        rintro _ hmem
        obtain ⟨piece, hpiece, rfl⟩ := List.mem_map.1 hmem
        rw [hreplace]
        exact (hproper piece hpiece).replaceAll hpattern hentry.value
      obtain ⟨hfill, hstrings⟩ := ih hresolved hproper'
      refine ⟨?_, fun piece hpiece => hstrings _ (List.mem_map_of_mem hpiece)⟩
      rw [← hreplace] at hweave
      refine (congrArg (fill resolved) hweave).trans (hfill.trans ?_)
      rw [List.map_map]
      rfl

theorem fill_eq_self {resolved : List Resolved} {body : Text}
    (hforms : ∀ entry ∈ resolved, entry.forms = [.text])
    (h : ∀ entry ∈ resolved, ¬Placeholder.literal ⟨entry.path, .text⟩ <:+: body) :
    fill resolved body = body := by
  induction resolved with
  | nil => rfl
  | cons entry resolved ih =>
      obtain ⟨hentry, hrest⟩ := List.forall_mem_cons.1 h
      obtain ⟨hform, hforms⟩ := List.forall_mem_cons.1 hforms
      rw [fill_cons, Resolved.replaceIn_of_text hform, Text.replaceAll_eq_self _ hentry, ih hforms hrest]

/-! Values. -/

theorem Dictionary.mem_of_get? {κ ν : Type} [DecidableEq κ] {key : κ} {value : ν} {entries : List (κ × ν)}
    (h : get? key entries = some value) : (key, value) ∈ entries := by
  induction entries with
  | nil => cases h
  | cons head rest ih =>
      obtain ⟨k, v⟩ := head
      rw [get?] at h
      split at h
      · next heq =>
        cases h
        exact heq ▸ List.mem_cons_self
      · exact List.mem_cons_of_mem _ (ih h)

namespace Settings

variable {document : Document}

theorem spelled_of_descend {members : List (Text × Json)} (hspelled : ∀ member ∈ members, member.2.Spelled)
    {keys : List Text} {value : Json} (h : descend members keys = .ok value) : value.Spelled := by
  induction keys generalizing members with
  | nil => cases h
  | cons key rest ih =>
      have hmember : ∀ found, Dictionary.get? key members = some found → found.Spelled :=
          fun found hfound =>
        hspelled (key, found) (Dictionary.mem_of_get? hfound)
      cases rest with
      | nil =>
          rw [descend] at h
          split at h
          · next found hfound =>
            cases h
            exact hmember _ hfound
          · cases h
      | cons next rest =>
          rw [descend] at h
          split at h
          · next inner hinner =>
            cases hmember _ hinner with
            | object hinner => exact ih hinner h
          · cases h
          · cases h
          · simp

/-- The values in a settings document that has been read are spelled as they can stand in
strings. -/
theorem Document.spelled_of_get {text path : Text} {value : Json} (hparse : parse text = .ok document)
    (h : document.get path = .ok value) : value.Spelled := by
  obtain ⟨hread, -⟩ := parse_eq_ok_iff.1 hparse
  cases Json.spelled_of_read hread with
  | object hmembers =>
      rw [Document.get] at h
      cases hdescend : descend document.root (Text.split '.' path) with
      | error obstacle =>
          rw [hdescend] at h
          cases h
      | ok found =>
          rw [hdescend] at h
          cases h
          exact spelled_of_descend hmembers hdescend

/-- The value is no string, or one whose text can stand between quotes as it is. -/
def Insertable : Json → Prop
  | .string text => ∃ meant, Json.read ('"' :: text ++ ['"']) = .ok (.string meant)
  | .null | .bool _ | .number _ | .array _ | .object _ => True

theorem insertable_string_iff {text : Text} :
    ((Json.read ('"' :: text ++ ['"'])).toOption.any fun value => value.kind = .string) ↔
      Insertable (.string text) := by
  rw [Insertable]
  rcases Json.read ('"' :: text ++ ['"']) with fault | value
  · simp [Except.toOption]
  · cases value <;> simp [Except.toOption, Json.kind]

instance : DecidablePred Insertable
  | .string _ => decidable_of_iff _ insertable_string_iff
  | .null | .bool _ | .number _ | .array _ | .object _ => .isTrue trivial

/-- What is inserted for a value can stand in a string. -/
theorem isSome_decoded?_of_valueOf? {value : Json} (hspelled : value.Spelled)
    (hinsertable : Insertable value) {text : Text} (h : valueOf? value = some (.text text)) :
    (decoded? text).isSome := by
  cases value with
  | string text' =>
      obtain ⟨meant, hmeant⟩ := hinsertable
      rw [valueOf?] at h
      split at h
      · cases h
      · cases h
        exact Json.isSome_decoded?_of_read hmeant
  | number spelling =>
      cases h
      cases hspelled with
      | number hspelling => exact Json.Scanner.isSome_decoded?_of_literal hspelling.literal
  | bool b => cases b <;> cases h <;> decide
  | null => cases h
  | array items => cases h
  | object members => cases h

theorem Document.value_eq_ok_iff {path : Text} {value : Value} : document.value path = .ok value ↔
    ∃ found, document.get (qualified path) = .ok found ∧ valueOf? found = some value := by
  rw [Document.value]
  cases document.get (qualified path) with
  | error failure => simp [bind, Except.bind]
  | ok found => cases hfound : valueOf? found <;> simp [bind, Except.bind, hfound]

theorem Document.value_of_get {path : Text} {found : Json} {value : Value}
    (hget : document.get (qualified path) = .ok found) (hfound : valueOf? found = some value) :
    document.value path = .ok value :=
  value_eq_ok_iff.2 ⟨found, hget, hfound⟩

/-- A scalar other than null has a text. -/
theorem Document.knows_of_get {path : Text} {value : Json}
    (hget : document.get (qualified path) = .ok value)
    (hkind : value.kind ∈ [.string, .number, .boolean]) : document.Knows path := by
  have hvalue : ∃ found, valueOf? value = some found := by
    cases value with
    | bool b => cases b <;> exact ⟨_, rfl⟩
    | string text => exact ⟨_, rfl⟩
    | number spelling => exact ⟨_, rfl⟩
    | null => simp [Json.kind] at hkind
    | array items => simp [Json.kind] at hkind
    | object members => simp [Json.kind] at hkind
  obtain ⟨found, hfound⟩ := hvalue
  exact ⟨found, value_of_get hget hfound⟩

/-- What is inserted for a path can stand in a string. -/
theorem Document.isSome_decoded?_of_valueFrom {text path inserted : Text} {source left : RandomSource}
    (hparse : parse text = .ok document)
    (hinsertable : ∀ value, document.get (qualified path) = .ok value → Insertable value)
    (h : document.valueFrom path source = (.ok inserted, left)) : (decoded? inserted).isSome := by
  rw [valueFrom] at h
  cases hvalue : document.value path with
  | error failure =>
      rw [hvalue] at h
      cases h
  | ok found =>
      obtain ⟨value, hget, hfound⟩ := value_eq_ok_iff.1 hvalue
      rw [hvalue] at h
      cases found with
      | text text' =>
          cases h
          exact isSome_decoded?_of_valueOf? (spelled_of_get hparse hget) (hinsertable value hget) hfound
      | secret =>
          cases h
          have halphabet : secretAlphabet.all Char.isAlphanum = true := by decide
          exact Json.Scanner.isSome_decoded?_of_literal fun c hc =>
            Json.literal_of_isAlphanum (List.all_eq_true.1 halphabet c
              (RandomSource.mem_alphabet_of_mem_take hc))

/-- What has been resolved has its value from its path. -/
theorem Document.exists_valueFrom_of_mem {paths : List (Text × List Form)} {source left : RandomSource}
    {resolved : List Resolved} (h : document.resolveFrom paths source = (.ok resolved, left))
    {entry : Resolved} (hentry : entry ∈ resolved) :
    ∃ source' left', document.valueFrom entry.path source' = (.ok entry.value, left') := by
  induction paths generalizing source resolved with
  | nil => cases h; cases hentry
  | cons first rest ih =>
      obtain ⟨path, forms⟩ := first
      rw [resolveFrom] at h
      rcases hfirst : document.valueFrom path source with ⟨failure | value, between⟩
      · rw [hfirst] at h
        cases h
      rcases hrest : document.resolveFrom rest between with ⟨failure | more, left'⟩ <;> rw [hfirst] at h <;>
        dsimp only at h <;> rw [hrest] at h <;> cases h
      rcases List.mem_cons.1 hentry with rfl | hentry
      · exact ⟨source, between, hfirst⟩
      · exact ih hrest hentry

end Settings

/-! Placeholders in strings. -/

/-- The text behind `front` lies in one string, where the reader takes this as a value. -/
structure StandsInValue (front text : Text) : Prop where
  opened : (between.feed front).2.isString
  stays : (decoded? text).isSome
  takes : (Json.Reader.expectingBehind? (between.feed front).1).any Json.Expecting.takesValue

instance (front text : Text) : Decidable (StandsInValue front text) :=
  decidable_of_iff ((between.feed front).2.isString ∧ (decoded? text).isSome ∧
    (Json.Reader.expectingBehind? (between.feed front).1).any Json.Expecting.takesValue)
    ⟨fun h => ⟨h.1, h.2.1, h.2.2⟩, fun h => ⟨h.opened, h.stays, h.takes⟩⟩

/-- The reader takes a value at the string of a piece in which a text stands that stands in values
only. -/
theorem StandsInValue.takes_of_piece {before : List Piece} {piece : Piece}
    (hbefore : ∀ piece ∈ before, piece.Proper) (hpiece : piece.Proper)
    (hstray : .stray ∉ (between.feed (weave before (piece.lead ++ ['"']))).1)
    {first text rest : Text} (hsource : piece.source = first ++ text ++ rest)
    (h : StandsInValue (weave before (piece.lead ++ ['"']) ++ first) text) {next : Json.Reader Json}
    (hnext : Json.Reader.Runs .json (.reading [] .value)
      (between.feed (weave before (piece.lead ++ ['"']))).1 next) :
    ∃ stack expecting, next = .reading stack expecting ∧ expecting.takesValue :=
  Json.takesValue_of_piece hbefore hpiece hstray (hsource.trans (List.append_assoc ..)) h.takes hnext

namespace Settings

variable {document : Document} {raw : Text}

/-- The references of a settings document to itself are texts in its values, and what they refer to
has a text. -/
structure SelfReferences (raw : Text) (document : Document) : Prop where
  form : ∀ placeholder ∈ Placeholder.occurringIn raw, placeholder.form = .text
  stands : ∀ placeholder ∈ Placeholder.occurringIn raw, ∀ front rest,
    raw = front ++ placeholder.literal ++ rest →
    StandsInValue front placeholder.literal
  scalar : ∀ path ∈ Placeholder.pathsIn raw, ∃ value, document.get (qualified path) = .ok value ∧
    value.kind ∈ [.string, .number, .boolean]

theorem forall_stands_iff {raw literal : Text} :
    (∀ n ≤ raw.length, literal.isPrefixOf (raw.drop n) → StandsInValue (raw.take n) literal) ↔
      ∀ front rest, raw = front ++ literal ++ rest → StandsInValue front literal := by
  constructor
  · rintro h front rest rfl
    have hfront := h front.length (by simp)
    rw [List.append_assoc, List.drop_left, List.take_left] at hfront
    exact hfront (List.isPrefixOf_iff_prefix.2 (List.prefix_append literal rest))
  · intro h n _ hbegins
    obtain ⟨rest, hrest⟩ := List.isPrefixOf_iff_prefix.1 hbegins
    exact h (raw.take n) rest (by rw [List.append_assoc, hrest, List.take_append_drop])

instance (raw literal : Text) :
    Decidable (∀ front rest, raw = front ++ literal ++ rest → StandsInValue front literal) :=
  decidable_of_iff _ forall_stands_iff

instance (document : Document) (path : Text) : Decidable (∃ value, document.get path = .ok value ∧
    value.kind ∈ [Json.Kind.string, .number, .boolean]) :=
  decidable_of_iff ((document.get path).toOption.any fun value =>
      value.kind ∈ [Json.Kind.string, .number, .boolean]) <| by
    cases document.get path <;> simp [Except.toOption]

instance (document : Document) (path : Text) :
    Decidable (∀ value, document.get path = .ok value → Insertable value) :=
  decidable_of_iff ((document.get path).toOption.all fun value => Insertable value) <| by
    cases document.get path <;> simp [Except.toOption]

instance (raw : Text) (document : Document) : Decidable (SelfReferences raw document) :=
  decidable_of_iff
    ((∀ placeholder ∈ Placeholder.occurringIn raw, placeholder.form = .text) ∧
      (∀ placeholder ∈ Placeholder.occurringIn raw, ∀ front rest,
        raw = front ++ placeholder.literal ++ rest →
        StandsInValue front placeholder.literal) ∧
      ∀ path ∈ Placeholder.pathsIn raw, ∃ value, document.get (qualified path) = .ok value ∧
        value.kind ∈ [.string, .number, .boolean])
    ⟨fun h => ⟨h.1, h.2.1, h.2.2⟩, fun h => ⟨h.form, h.stands, h.scalar⟩⟩

/-- References to insertable values fit into strings when they have been resolved. -/
theorem SelfReferences.fitsString (h : SelfReferences raw document) (hparse : parse raw = .ok document)
    (hinsertable : ∀ path ∈ Placeholder.pathsIn raw, ∀ value, document.get (qualified path) = .ok value →
      Insertable value) {randomness left : RandomSource} {resolved : List Resolved}
    (hresolved : document.resolveIn raw randomness = (.ok resolved, left)) {entry : Resolved}
    (hentry : entry ∈ resolved) :
    entry.FitsString ∧ ⟨entry.path, .text⟩ ∈ Placeholder.occurringIn raw := by
  have hpath := (Document.mem_pathsIn_iff_of_resolveIn hresolved).2 ⟨entry, hentry, rfl⟩
  obtain ⟨form, hoccurs⟩ := Placeholder.mem_pathsIn.1 hpath
  obtain rfl : form = .text := h.form _ hoccurs
  obtain ⟨front, rest, hraw⟩ := Placeholder.literal_infix_of_mem hoccurs
  obtain ⟨source, left', hvalue⟩ := Document.exists_valueFrom_of_mem hresolved hentry
  refine ⟨⟨?_, (h.stands _ hoccurs front rest hraw.symm).stays,
    Document.isSome_decoded?_of_valueFrom hparse (hinsertable _ hpath) hvalue⟩, hoccurs⟩
  have hnumber : (⟨entry.path, .number⟩ : Placeholder) ∉ Placeholder.occurringIn raw := fun hmem =>
    absurd (h.form _ hmem) (by simp)
  rw [Document.forms_of_resolveIn hresolved hentry, Placeholder.formsIn, Placeholder.formsAmong]
  simp [hnumber, hoccurs]

/-- Settings that are filled with texts that fit into strings can still be read. -/
theorem exists_parse_fill (hparse : parse raw = .ok document) (hreferences : SelfReferences raw document)
    {resolved : List Resolved} (hfits : ∀ entry ∈ resolved, entry.FitsString ∧
      ⟨entry.path, .text⟩ ∈ Placeholder.occurringIn raw) : ∃ settings, parse (fill resolved raw) =
        .ok settings := by
  obtain ⟨hread, -⟩ := parse_eq_ok_iff.1 hparse
  have hruns := Json.read_eq_ok_iff.1 hread
  obtain ⟨pieces, tail, rfl, hproper, -, hdollar⟩ := @Json.exists_weave between rfl raw hruns.not_stray
  obtain ⟨hfill, hproper'⟩ := fill_weave (fun entry hentry => (hfits entry hentry).1) hproper hdollar
  have halike := @Json.allAlike_weave (fill resolved)
    (fun value value' => value.shape = value'.shape) (fun _ => rfl)
    (fun _ _ => rfl) pieces tail hproper hproper' between rfl hruns.not_stray (.reading [] .value) ?_
  · obtain ⟨next, hruns', hnext⟩ := hruns.related Json.related_shape (.reading .nil (by simp)) halike
    rw [← hfill] at hruns'
    cases hnext with
    | done hshape => exact exists_parse_of_shape_eq hparse (Json.read_eq_ok_iff.2 hruns') hshape
  · intro before piece after heq hchanged next hnext
    have hweave := Json.weave_weave before piece after tail
    rw [← heq] at hweave
    have hstray : .stray ∉ (between.feed (weave before (piece.lead ++ ['"']))).1 := by
      intro hmem
      refine hruns.not_stray (List.mem_append_left _ ?_)
      rw [hweave, Json.Scanner.feed_append]
      exact List.mem_append_left _ hmem
    obtain ⟨entry, hentry, first, rest, hsource⟩ :
        ∃ entry ∈ resolved, Placeholder.literal ⟨entry.path, .text⟩ <:+: piece.source := by
      refine Classical.byContradiction fun hnone => hchanged ?_
      exact fill_eq_self (fun entry hentry => (hfits entry hentry).1.forms)
        fun entry hentry hoccurs => hnone ⟨entry, hentry, hoccurs⟩
    have hstands := hreferences.stands _ (hfits entry hentry).2
      (weave before (piece.lead ++ ['"']) ++ first)
      (rest ++ '"' :: weave after tail) (by rw [hweave, ← hsource]; simp only [List.append_assoc])
    exact hstands.takes_of_piece (fun piece hmem => hproper piece (by simp [heq, hmem]))
      (hproper piece (by simp [heq])) hstray hsource.symm hnext

/-- Settings are expanded with what has been resolved for the paths in their text. -/
theorem expandFrom_of_resolveIn (hparse : parse raw = .ok document) {randomness left : RandomSource}
    {resolved : List Resolved} (h : document.resolveIn raw randomness = (.ok resolved, left)) :
    expandFrom raw randomness = (.ok (fill resolved raw), left) := by
  rw [expandFrom, hparse]
  dsimp only
  rw [h]

/-- Settings whose references to themselves are texts in their values are always expanded. If the
strings among what is referred to can stand between quotes as they are, the expanded text is a
settings document, whatever the secrets are. -/
theorem expanded_of_selfReferences (hparse : parse raw = .ok document)
    (hreferences : SelfReferences raw document) (mode : WriteMode) (session : Session) : ∃ text,
      ((expand (m := Action) mode (fun _ => pure ()) raw).outcome session).1 = .ok text ∧
      ((∀ path ∈ Placeholder.pathsIn raw, ∀ value, document.get (qualified path) = .ok value →
        Insertable value) →
        ∃ settings, parse text = .ok settings ∧
        ((parseExpanded raw).outcome session).1 = .ok settings) := by
  have hknown : ∀ path ∈ Placeholder.pathsIn raw, document.Knows path := by
    intro path hpath
    obtain ⟨value, hget, hkind⟩ := hreferences.scalar path hpath
    exact Document.knows_of_get hget hkind
  obtain ⟨resolved, left, hresolved⟩ := Document.exists_resolveIn hknown session.randomness
  have hexpand := expandFrom_of_resolveIn hparse hresolved
  refine ⟨fill resolved raw, by rw [outcome_expand_in_memory, hexpand], fun hinsertable => ?_⟩
  obtain ⟨settings, hsettings⟩ := exists_parse_fill hparse hreferences fun entry hentry =>
    hreferences.fitsString hparse hinsertable hresolved hentry
  refine ⟨settings, hsettings, ?_⟩
  rw [outcome_parseExpanded, worked, hexpand]
  exact hsettings

/-- The settings that a text is, where it is some. -/
def settingsOf (raw : Text) : Document := (parse raw).toOption.getD ⟨[], []⟩

theorem parse_eq_settingsOf {raw : Text} (h : (parse raw).toOption.isSome) :
    parse raw = .ok (settingsOf raw) := by
  rw [settingsOf]
  cases hparse : parse raw with
  | error failure =>
      rw [hparse] at h
      cases h
  | ok document => rfl

/-- Settings that refer to a number, a boolean, a request for a secret and a string with an escape
of its own. -/
def insertableRaw : Text :=
  ("\x7b\"placeholder\":\x7b\"data\":\x7b\"n\":1.50,\"b\":true,\"s\":\"$(velocity.secret)\",\"t\":\"\\\\n\"," ++
    "\"u\":\"$(mcp.n) $(mcp.b) $(mcp.s)$(mcp.t)\"\x7d,\"suffixes\":[\"$(mcp.b)\"]\x7d\x7d").toList

theorem expanded_of_selfReferences_scalars : ∃ settings,
    ((parseExpanded insertableRaw).outcome (Build.sampleSession "")).1 = .ok settings := by
  have hparse : parse insertableRaw = .ok (settingsOf insertableRaw) :=
    parse_eq_settingsOf (by decide +kernel)
  have hreferences : SelfReferences insertableRaw (settingsOf insertableRaw) := by decide +kernel
  obtain ⟨text, -, hreadable⟩ := expanded_of_selfReferences hparse hreferences .once
    (Build.sampleSession "")
  obtain ⟨settings, -, hsettings⟩ := hreadable (by decide +kernel)
  exact ⟨settings, hsettings⟩

/-- Settings that refer to a string which is a quote. -/
def quoteRaw : Text :=
  "\x7b\"placeholder\":\x7b\"data\":\x7b\"a\":\"\\\"\",\"b\":\"$(mcp.a)\"\x7d\x7d\x7d".toList

theorem expanded_unreadable : parse quoteRaw = .ok (settingsOf quoteRaw) ∧
    SelfReferences quoteRaw (settingsOf quoteRaw) ∧ ∃ failure,
      ((parseExpanded quoteRaw).outcome (Build.sampleSession "")).1 = .error failure := by
  refine ⟨parse_eq_settingsOf (by decide +kernel), by decide +kernel, ?_⟩
  have hnone : ((parseExpanded quoteRaw).outcome (Build.sampleSession "")).1.toOption.isNone := by
    decide +kernel
  cases hresult : ((parseExpanded quoteRaw).outcome (Build.sampleSession "")).1 with
  | error failure => exact ⟨failure, rfl⟩
  | ok settings =>
      rw [hresult] at hnone
      cases hnone

end Settings

end ServerPack
