import ServerPack.Proofs.Json.ReaderSteps
import ServerPack.Settings.Document

/-!
Settings documents of one shape. `Json.mapStrings` puts other values in place of the strings of a
JSON value, and the shape of a value is what is left of it when all texts but the keys are taken out
of it (`Json.shape`). The section of a settings document stays one if scalars are put in place of
its strings and texts in place of its suffixes (`exists_readSection_mapStrings`). So whether a text
is a settings document depends on the shape of its value alone (`exists_parse_of_shape_eq`).
-/

namespace ServerPack

namespace Json

mutual

/-- The value with other values in place of its strings. -/
def mapStrings (f : Text → Json) : Json → Json
  | .null => .null
  | .bool value => .bool value
  | .number spelling => .number spelling
  | .string text => f text
  | .array items => .array (mapItems f items)
  | .object members => .object (mapMembers f members)

/-- The elements of an array with other values in place of their strings. -/
def mapItems (f : Text → Json) : List Json → List Json
  | [] => []
  | item :: rest => mapStrings f item :: mapItems f rest

/-- The members of an object with other values in place of their strings. -/
def mapMembers (f : Text → Json) : List (Text × Json) → List (Text × Json)
  | [] => []
  | (key, value) :: rest => (key, mapStrings f value) :: mapMembers f rest

end

/-- The value with an empty text for each of its texts. -/
def shape (value : Json) : Json := value.mapStrings fun _ => .string []

variable (f : Text → Json)

theorem mapItems_eq_map (items : List Json) : mapItems f items = items.map (mapStrings f) := by
  induction items with
  | nil => rfl
  | cons item rest ih => rw [mapItems, ih, List.map_cons]

theorem mapMembers_eq_map (members : List (Text × Json)) :
    mapMembers f members = members.map fun member => (member.1, mapStrings f member.2) := by
  induction members with
  | nil => rfl
  | cons member rest ih => rw [mapMembers, ih, List.map_cons]

theorem get?_mapMembers (key : Text) (members : List (Text × Json)) :
    Dictionary.get? key (mapMembers f members) = (Dictionary.get? key members).map (mapStrings f) := by
  induction members with
  | nil => rfl
  | cons member rest ih =>
      rw [mapMembers, Dictionary.get?, Dictionary.get?, ih]
      split <;> rfl

mutual

@[simp] theorem mapStrings_string : ∀ value : Json, value.mapStrings .string = value
  | .null | .bool _ | .number _ | .string _ => rfl
  | .array items => congrArg Json.array (mapItems_string items)
  | .object members => congrArg Json.object (mapMembers_string members)

theorem mapItems_string : ∀ items : List Json, mapItems .string items = items
  | [] => rfl
  | item :: rest => by rw [mapItems, mapStrings_string item, mapItems_string rest]

theorem mapMembers_string : ∀ members : List (Text × Json), mapMembers .string members = members
  | [] => rfl
  | (key, value) :: rest => by rw [mapMembers, mapStrings_string value, mapMembers_string rest]

end

/-- The values become the same when other values are put in place of their strings. -/
def SameWith (f g : Text → Json) (value value' : Json) : Prop := value.mapStrings f = value'.mapStrings g

/-- Of values that become the same such containers are made. -/
theorem related_sameWith (f g : Text → Json) : Builder.Related (SameWith f g) .json .json where
  array {items items'} h := by
    have hitems : items.map (mapStrings f) = items'.map (mapStrings g) := by
      rw [← List.forall₂_eq_eq_eq, List.forall₂_map_left_iff, List.forall₂_map_right_iff]
      exact h
    simp only [SameWith, Builder.json, mapStrings, mapItems_eq_map, hitems]
  object {members members'} h := by
    have hmembers : members.map (fun member => (member.1, mapStrings f member.2)) =
        members'.map fun member => (member.1, mapStrings g member.2) := by
      rw [← List.forall₂_eq_eq_eq, List.forall₂_map_left_iff, List.forall₂_map_right_iff]
      exact h.imp fun member member' hmember => Prod.ext hmember.1 hmember.2
    simp only [SameWith, Builder.json, mapStrings, mapMembers_eq_map, hmembers]
  number _ := rfl

theorem related_shape : Builder.Related (fun value value' => shape value = shape value') .json .json :=
  related_sameWith _ _

/-- The value is none that contains others. -/
def IsScalar (value : Json) : Prop := value.kind ≠ .array ∧ value.kind ≠ .object

/-- The text that a value is. -/
def text? : Json → Option Text
  | .string text => some text
  | .null | .bool _ | .number _ | .array _ | .object _ => none

/-- The texts among the elements of a value. -/
def texts : Json → List Text
  | .array items => items.filterMap text?
  | .null | .bool _ | .number _ | .string _ | .object _ => []

theorem texts_of_isScalar {value : Json} (h : value.IsScalar) : value.texts = [] := by
  cases value with
  | array items => exact absurd rfl h.1
  | _ => rfl

/-- Other texts in place of the texts among the elements are the texts among the new ones. -/
theorem texts_mapStrings {f : Text → Json} (hf : ∀ text, (f text).IsScalar) {g : Text → Text} {value : Json}
    (h : ∀ text ∈ value.texts, f text = .string (g text)) :
    (value.mapStrings f).texts = value.texts.map g := by
  cases value with
  | array items =>
      rw [mapStrings, texts, texts, mapItems_eq_map, List.filterMap_map, List.map_filterMap]
      refine List.filterMap_congr fun item hmem => ?_
      cases item with
      | string text =>
          have htext := h text (List.mem_filterMap.2 ⟨_, hmem, rfl⟩)
          rw [Function.comp_apply, mapStrings, htext]
          rfl
      | _ => rfl
  | string text => exact texts_of_isScalar (hf text)
  | _ => rfl

end Json

namespace Settings

open Json (mapItems mapMembers)

theorem bind_eq_ok_iff {α : Type} {checked : Except Misshape Unit} {more : Except Misshape α} {result : α} :
    (checked >>= fun _ => more) = .ok result ↔ checked = .ok () ∧ more = .ok result := by
  rcases checked with misshape | ⟨⟩ <;> simp [bind, Except.bind]

theorem checkNumberObject_ne_ok (value : Json) (length : Nat) :
    checkNumberObject value length ≠ .ok () := by
  cases value with
  | string text =>
      rw [checkNumberObject]
      split <;> simp
  | _ => simp [checkNumberObject, mistyped]

theorem checkValue_of_isScalar {value : Json} (h : value.IsScalar) : checkValue value = .ok () := by
  cases value with
  | array items => exact absurd rfl h.1
  | object members => exact absurd rfl h.2
  | _ => rfl

mutual

theorem checkValue_mapStrings {f : Text → Json} (hf : ∀ text, (f text).IsScalar) :
    ∀ value : Json, checkValue (value.mapStrings f) = .ok () ↔ checkValue value = .ok ()
  | .null => .rfl
  | .bool _ => .rfl
  | .number _ => .rfl
  | .string text => iff_of_true (checkValue_of_isScalar (hf text)) rfl
  | .array items => checkItems_mapStrings hf items
  | .object [] => .rfl
  | .object ((key, value) :: rest) => by
      simp only [Json.mapStrings, mapMembers, checkValue]
      split
      · exact iff_of_false (checkNumberObject_ne_ok _ _) (checkNumberObject_ne_ok _ _)
      · rw [bind_eq_ok_iff, bind_eq_ok_iff, checkValue_mapStrings hf value, checkMembers_mapStrings hf rest]

theorem checkItems_mapStrings {f : Text → Json} (hf : ∀ text, (f text).IsScalar) :
    ∀ items : List Json, checkItems (mapItems f items) = .ok () ↔ checkItems items = .ok ()
  | [] => .rfl
  | item :: rest => by
      rw [mapItems, checkItems, checkItems, bind_eq_ok_iff, bind_eq_ok_iff, checkValue_mapStrings hf item,
        checkItems_mapStrings hf rest]

theorem checkMembers_mapStrings {f : Text → Json} (hf : ∀ text, (f text).IsScalar) :
    ∀ members : List (Text × Json), checkMembers (mapMembers f members) = .ok () ↔
    checkMembers members = .ok ()
  | [] => .rfl
  | (_, value) :: rest => by
      rw [mapMembers, checkMembers, checkMembers, bind_eq_ok_iff, bind_eq_ok_iff,
        checkValue_mapStrings hf value, checkMembers_mapStrings hf rest]

end

theorem checkData_of_isScalar {value : Json} (h : value.IsScalar) : checkData value ≠ .ok () := by
  cases value with
  | object members => exact absurd rfl h.2
  | _ => simp [checkData, mistyped]

theorem checkData_mapStrings {f : Text → Json} (hf : ∀ text, (f text).IsScalar) (value : Json) :
    checkData (value.mapStrings f) = .ok () ↔ checkData value = .ok () := by
  cases value with
  | object members => exact checkMembers_mapStrings hf members
  | string text => exact iff_of_false (checkData_of_isScalar (hf text)) (by simp [checkData, mistyped])
  | _ => simp [checkData, Json.mapStrings, mistyped]

/-- A list can be gone through to the end if there is a result for each of its elements. -/
theorem exists_mapM_eq_ok_iff {α β : Type} {f : α → Except Misshape β} {l : List α} :
    (∃ results, l.mapM f = .ok results) ↔ ∀ a ∈ l, ∃ result, f a = .ok result := by
  induction l with
  | nil => exact ⟨fun _ => by simp, fun _ => ⟨[], rfl⟩⟩
  | cons a rest ih =>
      rw [List.forall_mem_cons, ← ih, List.mapM_cons]
      rcases f a with misshape | result
      · simp [bind, Except.bind]
      · rcases rest.mapM f with misshape | results <;> simp [bind, Except.bind, pure, Except.pure]

theorem exists_readSuffix_iff {value : Json} : (∃ suffix, readSuffix value = .ok suffix) ↔
    value.kind = .string := by
  cases value <;> simp [readSuffix, Json.kind, mistyped]

theorem readSuffixes_of_isScalar {value : Json} (h : value.IsScalar) (suffixes : List Text) :
    readSuffixes value ≠ .ok suffixes := by
  cases value with
  | array items => exact absurd rfl h.1
  | _ => simp [readSuffixes, mistyped]

/-- Suffixes stay suffixes if texts are put in place of the texts among them. -/
theorem exists_readSuffixes_mapStrings {f : Text → Json} (hf : ∀ text, (f text).IsScalar) {value : Json}
    (h : ∀ text ∈ value.texts, (f text).kind = .string) :
    (∃ suffixes, readSuffixes (value.mapStrings f) = .ok suffixes) ↔
    ∃ suffixes, readSuffixes value = .ok suffixes := by
  cases value with
  | array items =>
      rw [Json.mapStrings, readSuffixes, readSuffixes, Json.mapItems_eq_map, exists_mapM_eq_ok_iff,
        exists_mapM_eq_ok_iff, List.forall_mem_map]
      refine forall₂_congr fun item hmem => ?_
      rw [exists_readSuffix_iff, exists_readSuffix_iff]
      cases item with
      | string text => exact iff_of_true (h text (List.mem_filterMap.2 ⟨_, hmem, rfl⟩)) rfl
      | _ => exact .rfl
  | string text =>
      refine iff_of_false ?_ (by simp [readSuffixes, mistyped])
      rintro ⟨suffixes, hread⟩
      exact readSuffixes_of_isScalar (hf text) suffixes hread
  | _ => simp [readSuffixes, Json.mapStrings, mistyped]

/-- Suffixes that have been read are all texts. -/
theorem eq_texts_of_readSuffixes {value : Json} {suffixes : List Text}
    (h : readSuffixes value = .ok suffixes) :
    suffixes = value.texts := by
  cases value with
  | array items =>
      rw [readSuffixes] at h
      induction items generalizing suffixes with
      | nil => cases h; rfl
      | cons item rest ih =>
          rw [List.mapM_cons] at h
          cases item with
          | string text =>
              cases hrest : rest.mapM readSuffix with
              | error misshape => simp [readSuffix, hrest, bind, Except.bind] at h
              | ok more =>
                  rw [hrest] at h
                  cases h
                  rw [ih hrest]
                  rfl
          | _ => cases h
  | _ => cases h

theorem readSection_object_eq_ok_iff {fields : List (Text × Json)} {suffixes : List Text} :
    readSection (.object fields) = .ok suffixes ↔
      (∃ data, Dictionary.get? dataKey fields = some data ∧ checkData data = .ok ()) ∧
        ((Dictionary.get? "suffixes".toList fields).map readSuffixes).getD (.ok []) = .ok suffixes := by
  rw [readSection, bind_eq_ok_iff, dataKey]
  cases Dictionary.get? "data".toList fields <;>
    rcases ((Dictionary.get? "suffixes".toList fields).map readSuffixes).getD
      (.ok []) <;> simp [bind, Except.bind]

theorem readSection_array_eq_ok_iff {data value : Json} {more : List Json} {suffixes : List Text} :
    readSection (.array (data :: value :: more)) = .ok suffixes ↔
      checkData data = .ok () ∧ readSuffixes value = .ok suffixes ∧ more = [] := by
  rw [readSection, bind_eq_ok_iff]
  refine and_congr_right' ?_
  rcases readSuffixes value with misshape | result
  · simp [bind, Except.bind]
  · cases more <;> simp [bind, Except.bind]

theorem readSection_of_isScalar {value : Json} (h : value.IsScalar) (suffixes : List Text) :
    readSection value ≠ .ok suffixes := by
  cases value with
  | array items => exact absurd rfl h.1
  | object members => exact absurd rfl h.2
  | _ => simp [readSection, mistyped]

/-- What a section has for its suffixes. -/
def suffixesOf? : Json → Option Json
  | .object fields => Dictionary.get? "suffixes".toList fields
  | .array (_ :: suffixes :: _) => some suffixes
  | _ => none

/-- The texts among the suffixes of a section. -/
def suffixTexts (part : Json) : List Text := ((suffixesOf? part).map Json.texts).getD []

theorem suffixesOf?_of_isScalar {value : Json} (h : value.IsScalar) : suffixesOf? value = none := by
  cases value with
  | array items => exact absurd rfl h.1
  | object members => exact absurd rfl h.2
  | _ => rfl

theorem suffixesOf?_mapStrings {f : Text → Json} (hf : ∀ text, (f text).IsScalar) (part : Json) :
    suffixesOf? (part.mapStrings f) = (suffixesOf? part).map (Json.mapStrings f) := by
  cases part with
  | object fields => exact Json.get?_mapMembers f _ fields
  | array items => rcases items with _ | ⟨data, _ | ⟨suffixes, more⟩⟩ <;> rfl
  | string text => exact suffixesOf?_of_isScalar (hf text)
  | _ => rfl

/-- A section stays one if scalars are put in place of its strings and texts in place of its
suffixes. -/
theorem exists_readSection_mapStrings {f : Text → Json} (hf : ∀ text, (f text).IsScalar) {part : Json}
    (h : ∀ text ∈ suffixTexts part, (f text).kind = .string) :
    (∃ suffixes, readSection (part.mapStrings f) = .ok suffixes) ↔
    ∃ suffixes, readSection part = .ok suffixes := by
  have hsuffixes : ∀ value, suffixesOf? part = some value →
      ((∃ suffixes, readSuffixes (value.mapStrings f) = .ok suffixes) ↔
        ∃ suffixes, readSuffixes value = .ok suffixes) := by
    intro value hvalue
    rw [suffixTexts, hvalue] at h
    exact exists_readSuffixes_mapStrings hf h
  cases part with
  | object fields =>
      simp only [Json.mapStrings, readSection_object_eq_ok_iff, exists_and_left, Json.get?_mapMembers,
        Option.map_eq_some_iff, exists_exists_and_eq_and, checkData_mapStrings hf]
      refine and_congr_right' ?_
      cases hvalue : Dictionary.get? "suffixes".toList fields with
      | none => exact .rfl
      | some value => exact hsuffixes value hvalue
  | array items =>
      rcases items with _ | ⟨data, _ | ⟨suffixes, more⟩⟩
      · exact .rfl
      · simp only [Json.mapStrings, mapItems, readSection, bind_eq_ok_iff, checkData_mapStrings hf]
      · simp only [Json.mapStrings, mapItems, readSection_array_eq_ok_iff, exists_and_left,
          exists_and_right,
          checkData_mapStrings hf, hsuffixes suffixes rfl, Json.mapItems_eq_map, List.map_eq_nil_iff]
  | string text =>
      refine iff_of_false ?_ (by simp [readSection, mistyped])
      rintro ⟨suffixes, hread⟩
      exact readSection_of_isScalar (hf text) suffixes hread
  | _ => simp [readSection, Json.mapStrings, mistyped]

/-- Other texts in place of the suffixes of a section are the texts among the suffixes of the new
one. -/
theorem suffixTexts_mapStrings {f : Text → Json} (hf : ∀ text, (f text).IsScalar) {g : Text → Text}
    {part : Json} (h : ∀ text ∈ suffixTexts part, f text = .string (g text)) :
    suffixTexts (part.mapStrings f) = (suffixTexts part).map g := by
  rw [suffixTexts] at h
  rw [suffixTexts, suffixTexts, suffixesOf?_mapStrings hf]
  cases hvalue : suffixesOf? part with
  | none => rfl
  | some value =>
      rw [hvalue] at h
      exact Json.texts_mapStrings hf h

/-- The suffixes that a section is read for are the texts among its suffixes. -/
theorem eq_suffixTexts_of_readSection {part : Json} {suffixes : List Text}
    (h : readSection part = .ok suffixes) :
    suffixes = suffixTexts part := by
  cases part with
  | object fields =>
      obtain ⟨-, hvalue⟩ := readSection_object_eq_ok_iff.1 h
      rw [suffixTexts, suffixesOf?]
      cases hfound : Dictionary.get? "suffixes".toList fields with
      | none =>
          rw [hfound] at hvalue
          cases hvalue
          rfl
      | some value =>
          rw [hfound] at hvalue
          exact eq_texts_of_readSuffixes hvalue
  | array items =>
      rcases items with _ | ⟨data, _ | ⟨value, more⟩⟩
      · cases h
      · obtain ⟨-, hnil⟩ := bind_eq_ok_iff.1 h
        cases hnil
        rfl
      · exact eq_texts_of_readSuffixes (readSection_array_eq_ok_iff.1 h).2.1
  | _ => cases h

/-- Where other scalars are put into a section in two ways, and texts in place of its suffixes,
either is a section if the other is, with its own texts for suffixes. -/
theorem readSection_mapStrings {f f' : Text → Json} (hf : ∀ text, (f text).IsScalar)
    (hf' : ∀ text, (f' text).IsScalar) {part : Json} {suffixes : List Text}
    (h : readSection (part.mapStrings f) = .ok suffixes) {g : Text → Text}
    (hkind : ∀ text ∈ suffixTexts part, (f text).kind = .string)
    (htext : ∀ text ∈ suffixTexts part, f' text = .string (g text)) :
    readSection (part.mapStrings f') = .ok ((suffixTexts part).map g) := by
  have hpart := (exists_readSection_mapStrings hf hkind).1 ⟨suffixes, h⟩
  have hkind' : ∀ text ∈ suffixTexts part, (f' text).kind = .string := fun text hmem => by
    rw [htext text hmem]
    rfl
  obtain ⟨suffixes', hsuffixes'⟩ := (exists_readSection_mapStrings hf' hkind').2 hpart
  rw [hsuffixes', eq_suffixTexts_of_readSection hsuffixes', suffixTexts_mapStrings hf' htext]

theorem exists_readSection_shape (value : Json) :
    (∃ suffixes, readSection value.shape = .ok suffixes) ↔ ∃ suffixes, readSection value = .ok suffixes :=
  exists_readSection_mapStrings (fun _ => by simp [Json.IsScalar, Json.kind]) fun _ _ => rfl

/-- A text is a settings document if its value is an object that holds a section of the right
shape. -/
theorem parse_eq_ok_iff {text : Text} {document : Document} : parse text = .ok document ↔
    Json.read text = .ok (.object document.root) ∧
    ∃ part, Dictionary.get? sectionKey document.root = some part ∧
      readSection part = .ok document.suffixes := by
  obtain ⟨root, suffixes⟩ := document
  rw [parse]
  rcases Json.read text with fault | value
  · simp [Except.mapError, bind, Except.bind]
  cases value with
  | object members =>
      simp only [Except.mapError, bind, Except.bind, Except.ok.injEq, Json.object.injEq]
      constructor
      · intro h
        split at h
        · cases h
        · next part hpart =>
          rcases hsection : readSection part with misshape | found <;> rw [hsection] at h <;> cases h
          exact ⟨rfl, part, hpart, hsection⟩
      · rintro ⟨rfl, part, hpart, hsection⟩
        rw [hpart]
        dsimp only
        rw [hsection]
  | _ => simp [Except.mapError, bind, Except.bind]

/-- Whether a text is a settings document depends on the shape of its value alone. -/
theorem exists_parse_of_shape_eq {text text' : Text} {document : Document} (h : parse text = .ok document)
    {value : Json} (hvalue : Json.read text' = .ok value)
    (hshape : (Json.object document.root).shape = value.shape) :
    ∃ document', parse text' = .ok document' := by
  obtain ⟨-, part, hpart, hsection⟩ := parse_eq_ok_iff.1 h
  cases value with
  | object root =>
      have hmembers : mapMembers _ document.root = mapMembers _ root := Json.object.inj hshape
      have hpart' := Json.get?_mapMembers (fun _ => .string []) sectionKey root
      rw [← hmembers, Json.get?_mapMembers, hpart, eq_comm, Option.map_some,
        Option.map_eq_some_iff] at hpart'
      obtain ⟨part', hpart', heq⟩ := hpart'
      have hshape' : part.shape = part'.shape := heq.symm
      obtain ⟨suffixes, hsection'⟩ := (exists_readSection_shape part').1
        (hshape' ▸ (exists_readSection_shape part).2 ⟨_, hsection⟩)
      exact ⟨⟨root, suffixes⟩, parse_eq_ok_iff.2 ⟨hvalue, part', hpart', hsection'⟩⟩
  | _ => cases hshape

end Settings

end ServerPack
