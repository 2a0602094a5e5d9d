import ServerPack.Proofs.Settings.SelfReferences

/-!
What can be looked up in a settings document. The section that has been read is an object with data
and suffixes, or an array that stands for one (`readSection_cases`). A lookup that does not come to
its end has found something other than an object at one of its keys (`exists_of_descend_notObject`).
In an object this is a key of the path that was asked for; in an array nothing can be looked up at
all, because arrays have no keys (`lookups_of_parse`).
-/

namespace ServerPack.Settings

variable {members inner : List (Text × Json)} {keys : List Text} {key : Text} {value : Json}
  {document : Document}

/-! What has been read for a section. -/

theorem readSuffixes_eq_ok_iff {suffixes : List Text} :
    readSuffixes value = .ok suffixes ↔ value = .array (suffixes.map .string) := by
  constructor
  · intro h
    cases value with
    | array items =>
        rw [readSuffixes] at h
        refine congrArg Json.array ?_
        induction items generalizing suffixes with
        | nil => cases h; rfl
        | cons item rest ih =>
            rw [List.mapM_cons] at h
            cases item with
            | string text =>
                cases hrest : rest.mapM readSuffix with
                | error misshape => simp [readSuffix, hrest, bind, Except.bind] at h
                | ok more =>
                    rw [hrest] at h
                    cases h
                    rw [List.map_cons, ← ih hrest]
            | _ => cases h
    | _ => cases h
  · rintro rfl
    rw [readSuffixes]
    induction suffixes with
    | nil => rfl
    | cons suffix rest ih =>
        rw [List.map_cons, List.mapM_cons, ih]
        rfl

theorem exists_of_checkData (h : checkData value = .ok ()) : ∃ members, value = .object members := by
  cases value with
  | object members => exact ⟨members, rfl⟩
  | _ => cases h

/-- A section is an array of data and, perhaps, suffixes or an object with these fields. -/
theorem readSection_cases {part : Json} {suffixes : List Text} (h : readSection part = .ok suffixes) :
    (∃ data rest, part = .array (.object data :: rest) ∧
      (rest = [] ∧ suffixes = [] ∨ rest = [.array (suffixes.map .string)])) ∨
    ∃ fields data, part = .object fields ∧ Dictionary.get? dataKey fields = some (.object data) ∧
      (Dictionary.get? "suffixes".toList fields = none ∧ suffixes = [] ∨
        Dictionary.get? "suffixes".toList fields = some (.array (suffixes.map .string))) := by
  cases part with
  | object fields =>
      obtain ⟨⟨value, hdata, hcheck⟩, hsuffixes⟩ := readSection_object_eq_ok_iff.1 h
      obtain ⟨data, rfl⟩ := exists_of_checkData hcheck
      refine .inr ⟨fields, data, rfl, hdata, ?_⟩
      cases hfield : Dictionary.get? "suffixes".toList fields with
      | none =>
          rw [hfield] at hsuffixes
          cases hsuffixes
          exact .inl ⟨rfl, rfl⟩
      | some value =>
          rw [hfield] at hsuffixes
          exact .inr (congrArg some (readSuffixes_eq_ok_iff.1 hsuffixes))
  | array items =>
      rcases items with _ | ⟨first, _ | ⟨second, more⟩⟩
      · cases h
      · obtain ⟨hcheck, hnil⟩ := bind_eq_ok_iff.1 h
        obtain ⟨data, rfl⟩ := exists_of_checkData hcheck
        cases hnil
        exact .inl ⟨data, [], rfl, .inl ⟨rfl, rfl⟩⟩
      · obtain ⟨hcheck, hsuffixes, rfl⟩ := readSection_array_eq_ok_iff.1 h
        obtain ⟨data, rfl⟩ := exists_of_checkData hcheck
        exact .inl ⟨data, _, rfl, .inr (by rw [readSuffixes_eq_ok_iff.1 hsuffixes])⟩
  | _ => cases h

/-! From key to key. -/

theorem exists_object (h : value.kind = .object) : ∃ members, value = .object members := by
  cases value with
  | object members => exact ⟨members, rfl⟩
  | _ => cases h

theorem descend_singleton : descend members [key] = (Dictionary.get? key members).elim
    (.error .missing) .ok := by
  rw [descend]
  cases Dictionary.get? key members <;> rfl

theorem descend_cons_of_object (h : Dictionary.get? key members = some (.object inner))
    (hkeys : keys ≠ []) :
    descend members (key :: keys) = descend inner keys := by
  obtain ⟨next, more, rfl⟩ := List.exists_cons_of_ne_nil hkeys
  rw [descend, h]
  exact List.cons_ne_nil next more

theorem descend_cons_of_not_object (h : Dictionary.get? key members = some value)
    (hvalue : value.kind ≠ .object) (hkeys : keys ≠ []) :
    descend members (key :: keys) = .error (.notObject key) := by
  obtain ⟨next, more, rfl⟩ := List.exists_cons_of_ne_nil hkeys
  rw [descend, h]
  · cases value with
    | object inner => exact absurd rfl hvalue
    | _ => rfl
  · exact List.cons_ne_nil next more

/-- An obstacle that is not an object stands at one of the keys before the last. -/
theorem exists_of_descend_notObject (h : descend members keys = .error (.notObject key)) :
    ∃ before rest value, keys = before ++ key :: rest ∧ rest ≠ [] ∧
    descend members (before ++ [key]) = .ok value ∧ value.kind ≠ .object := by
  induction keys generalizing members with
  | nil => cases h
  | cons first keys ih =>
      cases hfirst : Dictionary.get? first members with
      | none => cases keys <;> simp [descend, hfirst] at h
      | some found =>
          cases keys with
          | nil => simp [descend, hfirst] at h
          | cons next more =>
              by_cases hkind : found.kind = .object
              · obtain ⟨inner, rfl⟩ := exists_object hkind
                rw [descend_cons_of_object hfirst (List.cons_ne_nil next more)] at h
                obtain ⟨before, rest, value, hkeys, hrest, hvalue, hobstacle⟩ := ih h
                refine ⟨first :: before, rest, value, by rw [hkeys, List.cons_append], hrest, ?_, hobstacle⟩
                rw [List.cons_append, descend_cons_of_object hfirst (by simp)]
                exact hvalue
              · rw [descend_cons_of_not_object hfirst hkind (List.cons_ne_nil next more)] at h
                cases h
                refine ⟨[], next :: more, found, rfl, List.cons_ne_nil next more, ?_, hkind⟩
                rw [List.nil_append, descend_singleton, hfirst]
                rfl

/-! Lookups in a document. -/

theorem split_qualified (path : Text) :
    Text.split '.' (qualified path) = sectionKey :: dataKey :: Text.split '.' path := by
  have hlead : "placeholder.data.".toList = sectionKey ++ '.' :: (dataKey ++ ['.']) := by decide +kernel
  have hqualified : qualified path = sectionKey ++ '.' :: (dataKey ++ '.' :: path) :=
    (congrArg (· ++ path) hlead).trans (by simp only [List.append_assoc, List.cons_append, List.nil_append])
  rw [hqualified, Text.split_append, Text.split_append, Text.split_eq_singleton (by decide),
    Text.split_eq_singleton (by decide)]
  rfl

theorem get_singleton {path : Text} (hpath : '.' ∉ path)
    (h : Dictionary.get? path document.root = some value) :
    document.get path = .ok value := by
  rw [Document.get, Text.split_eq_singleton hpath, descend_singleton, h]
  rfl

/-- A lookup below a section that is an object goes on in the section. -/
theorem get_field {fields : List (Text × Json)}
    (hsection : Dictionary.get? sectionKey document.root = some (.object fields))
    {path field : Text} (hpath : Text.split '.' path = [sectionKey, field]) :
    document.get path = (Dictionary.get? field fields).elim (.error (.unknownPath path)) .ok := by
  rw [Document.get, hpath, descend_cons_of_object hsection (List.cons_ne_nil _ _), descend_singleton]
  cases Dictionary.get? field fields <;> rfl

/-- A lookup below data goes on in the data. -/
theorem get_qualified {fields data : List (Text × Json)}
    (hsection : Dictionary.get? sectionKey document.root = some (.object fields))
    (hdata : Dictionary.get? dataKey fields = some (.object data)) (path : Text) :
    document.get (qualified path) = (descend data (Text.split '.' path)).mapError
      (Obstacle.failure (qualified path)) := by
  rw [Document.get, split_qualified, descend_cons_of_object hsection (List.cons_ne_nil _ _),
    descend_cons_of_object hdata (Text.split_ne_nil '.' path)]

theorem value_eq_error_of_resolve {path : Text} {failure : Failure} {session after : Session}
    (h : (document.resolve path).perform session = (.error failure, after)) :
    document.value path = .error failure := by
  have houtcome := congrArg Prod.fst (document.outcome_resolve path session)
  rw [Action.outcome, h, Document.valueFrom] at houtcome
  rcases hvalue : document.value path with _ | ⟨text⟩ | _ <;> rw [hvalue] at houtcome <;> cases houtcome
  rfl

/-- What can be looked up in a document that has been read. If its section is an array, there is no
value for any path. If it is an object, there are data in it, its suffixes are those of the
document, and a path that has no value is unknown, leads to something that is no value, or meets
something other than an object at one of its own keys. -/
theorem lookups_of_parse {text : Text} (hparse : parse text = .ok document) :
    (∃ data rest, document.get sectionKey = .ok (.array (.object data :: rest)) ∧
      (rest = [] ∧ document.suffixes = [] ∨ rest = [.array (document.suffixes.map .string)]) ∧
      ∀ path, document.value path = .error (.notAnObject sectionKey (qualified path))) ∨
    ∃ fields data, document.get sectionKey = .ok (.object fields) ∧
      document.get "placeholder.data".toList = .ok (.object data) ∧
      (document.get "placeholder.suffixes".toList = .error (.unknownPath "placeholder.suffixes".toList) ∧
          document.suffixes = [] ∨
        document.get "placeholder.suffixes".toList = .ok (.array (document.suffixes.map .string))) ∧
      ∀ path session failure after, (document.resolve path).perform session = (.error failure, after) →
        failure = .unknownPath (qualified path) ∨
        (∃ kind, failure = .notSubstitutable (qualified path) kind) ∨
          ∃ before key rest value, failure = .notAnObject key (qualified path) ∧
            Text.split '.' path = before ++ key :: rest ∧ rest ≠ [] ∧
            descend data (before ++ [key]) = .ok value ∧ value.kind ≠ .object := by
  obtain ⟨-, part, hpart, hsection⟩ := parse_eq_ok_iff.1 hparse
  have hget := get_singleton (by decide) hpart
  rcases readSection_cases hsection with ⟨data, rest, rfl, hrest⟩ | ⟨fields, data, rfl, hdata, hsuffixes⟩
  · refine .inl ⟨data, rest, hget, hrest, fun path => ?_⟩
    have hkind : (Json.array (.object data :: rest)).kind ≠ .object := by simp [Json.kind]
    rw [Document.value, Document.get, split_qualified, descend_cons_of_not_object hpart hkind
      (List.cons_ne_nil _ _)]
    rfl
  · have hdataKeys : Text.split '.' "placeholder.data".toList = [sectionKey, dataKey] := by decide +kernel
    have hsuffixKeys : Text.split '.' "placeholder.suffixes".toList = [sectionKey, "suffixes".toList] := by
      decide +kernel
    refine .inr ⟨fields, data, hget, ?_, ?_, fun path session failure after h => ?_⟩
    · rw [get_field hpart hdataKeys, hdata]
      rfl
    · rw [get_field hpart hsuffixKeys]
      rcases hsuffixes with ⟨hfield, hnone⟩ | hfield
      · exact .inl ⟨by rw [hfield]; rfl, hnone⟩
      · exact .inr (by rw [hfield]; rfl)
    · have hvalue := value_eq_error_of_resolve h
      rw [Document.value, get_qualified hpart hdata] at hvalue
      rcases hdescend : descend data (Text.split '.' path) with (_ | key) | found <;>
        rw [hdescend] at hvalue
      · cases hvalue
        exact .inl rfl
      · cases hvalue
        obtain ⟨before, rest, value, hfacts⟩ := exists_of_descend_notObject hdescend
        exact .inr (.inr ⟨before, key, rest, value, rfl, hfacts⟩)
      · refine .inr (.inl ⟨found.kind, ?_⟩)
        simp only [Except.mapError, bind, Except.bind] at hvalue
        split at hvalue <;> cases hvalue
        rfl

/-- A document whose section is an array. -/
def arrayRaw : Text := "\x7b\"placeholder\":[\x7b\"a\":\"x\"\x7d]\x7d".toList

theorem lookups_of_parse_array : parse arrayRaw = .ok (settingsOf arrayRaw) ∧
    ∀ path, (settingsOf arrayRaw).value path = .error (.notAnObject sectionKey (qualified path)) := by
  have hparse : parse arrayRaw = .ok (settingsOf arrayRaw) := parse_eq_settingsOf (by decide +kernel)
  refine ⟨hparse, ?_⟩
  rcases lookups_of_parse hparse with ⟨data, rest, -, -, hvalue⟩ | ⟨fields, data, hget, -⟩
  · exact hvalue
  · have harray : ((settingsOf arrayRaw).get sectionKey).toOption.map Json.kind = some .array := by
      decide +kernel
    rw [hget] at harray
    cases harray

end ServerPack.Settings
