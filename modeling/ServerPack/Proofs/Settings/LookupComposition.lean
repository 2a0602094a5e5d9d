import Mathlib.Data.List.DropRight
import ServerPack.Proofs.Settings.Lookup

/-!
How lookups go together. Keys lead from an object to a value if each but the last leads to an object
(`Leads`), and this is what a lookup goes by (`descend_eq_ok_iff`). One key more is looked up in the
value to which the others have led, and an obstacle that they have met is met all the same
(`descend_concat`). So a path with one more segment can be looked up in the value of the path
without it, and dots between keys lose nothing: every value has its path, and the keys can be told
from the path (`get_extended`).
-/

namespace ServerPack.Settings

/-- Keys lead from the members of an object to a value, one object into the next. -/
inductive Leads : List (Text × Json) → List Text → Json → Prop
  | last {members key value} : Dictionary.get? key members = some value → Leads members [key] value
  | inner {members key inner keys value} : Dictionary.get? key members = some (.object inner) →
    Leads inner keys value →
      Leads members (key :: keys) value

variable {members : List (Text × Json)} {keys : List Text} {key : Text} {value : Json} {document : Document}

theorem Leads.ne_nil (h : Leads members keys value) : keys ≠ [] := by
  cases h <;> exact List.cons_ne_nil _ _

/-- A lookup finds the value to which the keys lead. -/
theorem descend_eq_ok_iff : descend members keys = .ok value ↔ Leads members keys value := by
  constructor
  · intro hfound
    induction keys generalizing members with
    | nil => cases hfound
    | cons first keys ih =>
        cases hfirst : Dictionary.get? first members with
        | none => cases keys <;> simp [descend, hfirst] at hfound
        | some found =>
            by_cases hnil : keys = []
            · subst hnil
              rw [descend_singleton, hfirst] at hfound
              cases hfound
              exact .last hfirst
            · by_cases hkind : found.kind = .object
              · obtain ⟨inner, rfl⟩ := exists_object hkind
                rw [descend_cons_of_object hfirst hnil] at hfound
                exact .inner hfirst (ih hfound)
              · rw [descend_cons_of_not_object hfirst hkind hnil] at hfound
                cases hfound
  · intro hleads
    induction hleads with
    | last hlast =>
        rw [descend_singleton, hlast]
        rfl
    | inner hinner hrest ih => rw [descend_cons_of_object hinner hrest.ne_nil, ih]

/-! One key more. -/

/-- Looks a key up in a value to which other keys have led, `last` as the last of them. -/
def lookIn (last key : Text) : Json → Except Obstacle Json
  | .object inner => (Dictionary.get? key inner).elim (.error .missing) .ok
  | _ => .error (.notObject last)

theorem lookIn_of_not_object {last : Text} (h : value.kind ≠ .object) :
    lookIn last key value = .error (.notObject last) := by
  cases value with
  | object inner => exact absurd rfl h
  | _ => rfl

/-- One key more is looked up in the value to which the others lead, if they lead to one. -/
theorem descend_concat (hkeys : keys ≠ []) (key : Text) :
    descend members (keys ++ [key]) = descend members keys >>= lookIn (keys.getLast hkeys) key := by
  induction keys generalizing members with
  | nil => exact absurd rfl hkeys
  | cons first keys ih =>
      have hrest : keys ++ [key] ≠ [] := by simp
      rw [List.cons_append]
      cases hfirst : Dictionary.get? first members with
      | none =>
          have hmissing : ∀ rest : List Text, descend members (first :: rest) = .error .missing := by
            intro rest
            cases rest <;> simp [descend, hfirst]
          rw [hmissing, hmissing]
          rfl
      | some found =>
          by_cases hkind : found.kind = .object
          · obtain ⟨inner, rfl⟩ := exists_object hkind
            rw [descend_cons_of_object hfirst hrest]
            by_cases hnil : keys = []
            · subst hnil
              rw [List.nil_append, descend_singleton, descend_singleton, hfirst]
              rfl
            · rw [descend_cons_of_object hfirst hnil, ih hnil, List.getLast_cons hnil]
          · rw [descend_cons_of_not_object hfirst hkind hrest]
            by_cases hnil : keys = []
            · subst hnil
              rw [descend_singleton, hfirst]
              exact (lookIn_of_not_object hkind).symm
            · rw [descend_cons_of_not_object hfirst hkind hnil]
              rfl

/-! Paths. -/

/-- What stands behind the last dot of a path, or all of it if there is no dot. -/
def lastSegment (path : Text) : Text := path.rtakeWhile (· ≠ '.')

theorem lastSegment_of_no_dot {path : Text} (h : '.' ∉ path) : lastSegment path = path := by
  rw [lastSegment, List.rtakeWhile_eq_self_iff]
  intro c hc
  exact decide_eq_true fun hdot => h (hdot ▸ hc)

theorem lastSegment_append {segment : Text} (h : '.' ∉ segment) (front : Text) :
    lastSegment (front ++ '.' :: segment) = segment := by
  induction segment using List.reverseRecOn with
  | nil => exact List.rtakeWhile_concat_neg _ _ _ (by simp)
  | append_singleton segment c ih =>
      have hc : '.' ∉ segment ∧ c ≠ '.' := by simpa [eq_comm] using h
      rw [lastSegment, ← List.cons_append, ← List.append_assoc, List.rtakeWhile_concat_pos _ _ _
        (by simpa using hc.2)]
      exact congrArg (· ++ [c]) (ih hc.1)

/-- A path with a dot in it ends with a segment behind the last one. -/
theorem exists_segment {path : Text} (h : '.' ∈ path) :
    ∃ front segment, path = front ++ '.' :: segment ∧ '.' ∉ segment := by
  obtain ⟨back, front, hreverse, hback⟩ := List.eq_append_cons_of_mem (List.mem_reverse.2 h)
  refine ⟨front.reverse, back.reverse, ?_, mt List.mem_reverse.1 hback⟩
  rw [← List.reverse_reverse path, hreverse, List.reverse_append, List.reverse_cons, List.append_assoc]
  rfl

/-- The last segment of a path is the last key that is looked up for it. -/
theorem getLast_split (path : Text) : (Text.split '.' path).getLast (Text.split_ne_nil '.' path) =
    lastSegment path := by
  by_cases hdot : '.' ∈ path
  · obtain ⟨front, segment, rfl, hsegment⟩ := exists_segment hdot
    have hsplit : Text.split '.' (front ++ '.' :: segment) = Text.split '.' front ++ [segment] := by
      rw [Text.split_append, Text.split_eq_singleton hsegment]
    rw [List.getLast_congr _ (by simp) hsplit, List.getLast_concat, lastSegment_append hsegment]
  · rw [List.getLast_congr _ (by simp) (Text.split_eq_singleton hdot), List.getLast_singleton,
      lastSegment_of_no_dot hdot]

/-- A lookup with one more segment is a lookup in what has been found without it. -/
theorem get_append_segment {segment : Text} (hsegment : '.' ∉ segment) (path : Text) :
    document.get (path ++ '.' :: segment) =
      (descend document.root (Text.split '.' path) >>= lookIn (lastSegment path) segment).mapError
        (Obstacle.failure (path ++ '.' :: segment)) := by
  rw [Document.get, Text.split_append, Text.split_eq_singleton hsegment,
    descend_concat (Text.split_ne_nil '.' path), getLast_split]

theorem get_of_no_dot {path : Text} (hpath : '.' ∉ path) :
    document.get path = (Dictionary.get? path document.root).elim (.error (.unknownPath path)) .ok := by
  rw [Document.get, Text.split_eq_singleton hpath, descend_singleton]
  cases Dictionary.get? path document.root <;> rfl

theorem get_join_eq_ok_iff (hkeys : ∀ key ∈ keys, '.' ∉ key) (hne : keys ≠ []) :
    document.get (Text.join '.' keys) = .ok value ↔ Leads document.root keys value := by
  rw [← descend_eq_ok_iff, Document.get, Text.split_join hkeys hne]
  cases descend document.root keys <;> simp [Except.mapError]

/-- Lookups go together. With one more segment a path is looked up in the value that is found
without it: the segment is a key of an object, or it is missing there, or the value is no object and
is the obstacle, by the last segment of the path; and where nothing is found without it, the
obstacle is the same. A path without a dot is a key of the root. The dotted path of keys gives the
value to which they lead, and no two lists of keys have one path. -/
theorem get_extended (document : Document) :
    (∀ path segment, '.' ∉ segment →
      (∀ members, document.get path = .ok (.object members) → document.get (path ++ '.' :: segment) =
        (Dictionary.get? segment members).elim (.error (.unknownPath (path ++ '.' :: segment))) .ok) ∧
      (∀ value, document.get path = .ok value → value.kind ≠ .object →
        document.get (path ++ '.' :: segment) = .error
          (.notAnObject (lastSegment path) (path ++ '.' :: segment))) ∧
      ∀ failure, document.get path = .error failure →
        failure = .unknownPath path ∧
          document.get (path ++ '.' :: segment) = .error (.unknownPath (path ++ '.' :: segment)) ∨
        ∃ key, failure = .notAnObject key path ∧
          document.get (path ++ '.' :: segment) = .error (.notAnObject key (path ++ '.' :: segment))) ∧
    (∀ path, '.' ∉ path →
      document.get path = (Dictionary.get? path document.root).elim (.error (.unknownPath path)) .ok) ∧
    (∀ keys value, keys ≠ [] → (∀ key ∈ keys, '.' ∉ key) →
      (document.get (Text.join '.' keys) = .ok value ↔ Leads document.root keys value)) ∧
    ∀ keys keys', keys ≠ [] → keys' ≠ [] → (∀ key ∈ keys, '.' ∉ key) → (∀ key ∈ keys', '.' ∉ key) →
      Text.join '.' keys = Text.join '.' keys' → keys = keys' := by
  refine ⟨fun path segment hsegment => ?_, fun path => get_of_no_dot, fun keys value hne hkeys =>
    get_join_eq_ok_iff hkeys hne,
    fun keys keys' hne hne' hkeys hkeys' => Text.join_inj hkeys hkeys' hne hne'⟩
  rw [get_append_segment hsegment, Document.get]
  cases hfound : descend document.root (Text.split '.' path) with
  | error obstacle =>
      refine ⟨by rintro members ⟨⟩, by rintro value ⟨⟩, ?_⟩
      rintro failure ⟨⟩
      cases obstacle with
      | missing => exact .inl ⟨rfl, rfl⟩
      | notObject key => exact .inr ⟨key, rfl, rfl⟩
  | ok found =>
      refine ⟨?_, ?_, by rintro failure ⟨⟩⟩
      · rintro members ⟨⟩
        change (lookIn (lastSegment path) segment (.object members)).mapError _ = _
        rw [lookIn]
        cases Dictionary.get? segment members <;> rfl
      · rintro value ⟨⟩ hkind
        change (lookIn (lastSegment path) segment found).mapError _ = _
        rw [lookIn_of_not_object hkind]
        rfl

/-- A document with an object under the empty key and an array under the empty key in it. -/
def emptyKeysRaw : Text := "\x7b\"\":\x7b\"\":[0]\x7d,\"placeholder\":\x7b\"data\":\x7b\x7d\x7d\x7d".toList

theorem get_extended_empty_keys : parse emptyKeysRaw = .ok (settingsOf emptyKeysRaw) ∧
    ∃ value, Leads (settingsOf emptyKeysRaw).root [[], []] value ∧
    (settingsOf emptyKeysRaw).get ['.'] = .ok value ∧
      (settingsOf emptyKeysRaw).get "..x".toList = .error (.notAnObject [] "..x".toList) ∧
      (settingsOf emptyKeysRaw).get "..x.y".toList = .error (.notAnObject [] "..x.y".toList) := by
  refine ⟨parse_eq_settingsOf (by decide +kernel), ?_⟩
  have harray : ((settingsOf emptyKeysRaw).get ['.']).toOption.map Json.kind = some .array := by
    decide +kernel
  obtain ⟨hextended, -, hleads, -⟩ := get_extended (settingsOf emptyKeysRaw)
  rcases hvalue : (settingsOf emptyKeysRaw).get ['.'] with failure | value <;> rw [hvalue] at harray
  · cases harray
  have hkind : value.kind ≠ .object := by
    rw [Option.some.inj harray]
    decide
  have hobstacle := (hextended ['.'] ['x'] (by decide)).2.1 value hvalue hkind
  obtain ⟨hunknown, -⟩ | ⟨key, hkey, hfarther⟩ := (hextended "..x".toList ['y'] (by decide)).2.2 _ hobstacle
  · cases hunknown
  · cases hkey
    exact ⟨value, (hleads [[], []] value (by simp) (by simp)).1 hvalue, rfl, hobstacle, hfarther⟩

end ServerPack.Settings
