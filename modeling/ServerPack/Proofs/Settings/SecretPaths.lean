import ServerPack.Proofs.Json.KeyOrder
import ServerPack.Proofs.Settings.Lookup
import ServerPack.Proofs.Text.Utf8

/-!
Which paths of a settings document ask for a secret, and which are listed as such. The keys that
lead to a request are those with which a lookup comes to it (`mem_requestsBelow_iff_descend`). A
listed path is written from such keys from the top down (`secretsBelow_eq_map`), where a path that
is still empty is taken for no path at all, so the empty keys at its beginning leave nothing behind
(`foldl_extend_nil`). As long as no key contains a dot the list has one path for each path that asks
for a secret, without the dots at its beginning, and is therefore right if no such path begins with
a dot (`secrets_of_parse`).
-/

namespace ServerPack.Settings

mutual

/-- The keys that lead from a value to the requests for a secret at and below it. -/
def requestsAt : Json → List (List Text)
  | .object members => requestsBelow members
  | .string text => if text = secretRequest then [[]] else []
  | _ => []

/-- The keys that lead to the requests for a secret below an object. -/
def requestsBelow : List (Text × Json) → List (List Text)
  | [] => []
  | (key, value) :: rest => (requestsAt value).map (key :: ·) ++ requestsBelow rest

end

mutual

/-- No key of an object at or below a value contains a dot. -/
def undottedAt : Json → Bool
  | .object members => undottedBelow members
  | _ => true

/-- No key of an object or of the objects below it contains a dot. -/
def undottedBelow : List (Text × Json) → Bool
  | [] => true
  | (key, value) :: rest => '.' ∉ key && undottedAt value && undottedBelow rest

end

variable {members inner : List (Text × Json)} {keys rest : List Text} {key path : Text}
  {value : Json} {document : Document}

/-! Requests are what lookups come to. -/

theorem mem_requestsBelow : keys ∈ requestsBelow members ↔
    ∃ key value rest, keys = key :: rest ∧ (key, value) ∈ members ∧ rest ∈ requestsAt value := by
  induction members with
  | nil => simp [requestsBelow]
  | cons member more ih =>
      obtain ⟨first, made⟩ := member
      rw [requestsBelow, List.mem_append, List.mem_map, ih]
      constructor
      · rintro (⟨rest, hrest, rfl⟩ | ⟨key, value, rest, hkeys, hmember, hrest⟩)
        · exact ⟨first, made, rest, rfl, List.mem_cons_self, hrest⟩
        · exact ⟨key, value, rest, hkeys, List.mem_cons_of_mem _ hmember, hrest⟩
      · rintro ⟨key, value, rest, rfl, hmember, hrest⟩
        rcases List.mem_cons.1 hmember with heq | hmember
        · cases heq
          exact .inl ⟨rest, hrest, rfl⟩
        · exact .inr ⟨key, value, rest, rfl, hmember, hrest⟩

theorem ne_nil_of_mem_requestsBelow (h : keys ∈ requestsBelow members) : keys ≠ [] := by
  obtain ⟨key, -, rest, rfl, -⟩ := mem_requestsBelow.1 h
  exact List.cons_ne_nil key rest

theorem nil_mem_requestsAt : [] ∈ requestsAt value ↔ value = .string secretRequest := by
  cases value with
  | string text =>
      rw [requestsAt]
      split <;> simp_all
  | object members =>
      refine iff_of_false (fun h => ?_) (by simp)
      exact ne_nil_of_mem_requestsBelow h rfl
  | _ => simp [requestsAt]

theorem mem_requestsAt_of_ne_nil (hne : keys ≠ []) :
    keys ∈ requestsAt value ↔ ∃ inner, value = .object inner ∧ keys ∈ requestsBelow inner := by
  cases value with
  | object members => simp [requestsAt]
  | string text =>
      rw [requestsAt]
      split <;> simp [hne]
  | _ => simp [requestsAt]

/-- In members that are in order the first key belongs to one value. -/
theorem cons_mem_requestsBelow (hsorted : Dictionary.Sorted members) : key :: rest ∈ requestsBelow members ↔
    ∃ value, Dictionary.get? key members = some value ∧ rest ∈ requestsAt value := by
  rw [mem_requestsBelow]
  constructor
  · rintro ⟨key, value, rest, hkeys, hmember, hrest⟩
    cases hkeys
    exact ⟨value, (Dictionary.get?_eq_some_iff hsorted).2 hmember, hrest⟩
  · rintro ⟨value, hvalue, hrest⟩
    exact ⟨key, value, rest, rfl, (Dictionary.get?_eq_some_iff hsorted).1 hvalue, hrest⟩

/-- Keys lead to a request if a lookup with them comes to it. -/
theorem mem_requestsBelow_iff_descend (hordered : (Json.object members).Ordered) :
    keys ∈ requestsBelow members ↔ descend members keys = .ok (.string secretRequest) := by
  induction keys generalizing members with
  | nil => exact iff_of_false (fun h => ne_nil_of_mem_requestsBelow h rfl) (by simp [descend])
  | cons key rest ih =>
      obtain _ | _ | _ | _ | _ | ⟨hsorted, hvalues⟩ := hordered
      rw [cons_mem_requestsBelow hsorted]
      cases hvalue : Dictionary.get? key members with
      | none => cases rest <;> simp [descend, hvalue]
      | some value =>
          have hsome : (∃ found, some value = some found ∧ rest ∈ requestsAt found) ↔
            rest ∈ requestsAt value := by simp
          have hinner : value.Ordered := hvalues _ ((Dictionary.get?_eq_some_iff hsorted).1 hvalue)
          rw [hsome]
          by_cases hrest : rest = []
          · subst hrest
            rw [nil_mem_requestsAt, descend_singleton, hvalue]
            exact ⟨fun h => congrArg Except.ok h, Except.ok.inj⟩
          · rw [mem_requestsAt_of_ne_nil hrest]
            by_cases hkind : value.kind = .object
            · obtain ⟨inner, rfl⟩ := exists_object hkind
              rw [descend_cons_of_object hvalue hrest, ← ih hinner]
              simp
            · rw [descend_cons_of_not_object hvalue hkind hrest]
              refine iff_of_false ?_ (by simp)
              rintro ⟨inner, rfl, -⟩
              exact hkind rfl

mutual

theorem nodup_requestsAt : ∀ {value : Json}, value.Ordered → (requestsAt value).Nodup
  | .object members, .object hsorted hvalues => nodup_requestsBelow hsorted hvalues
  | .string text, _ => by
      rw [requestsAt]
      split <;> simp
  | .null, _ | .bool _, _ | .number _, _ | .array _, _ => List.nodup_nil

theorem nodup_requestsBelow : ∀ {members : List (Text × Json)}, Dictionary.Sorted members →
    (∀ member ∈ members, member.2.Ordered) → (requestsBelow members).Nodup
  | [], _, _ => List.nodup_nil
  | (key, value) :: rest, hsorted, hvalues => by
      obtain ⟨hvalue, hrest⟩ := List.forall_mem_cons.1 hvalues
      obtain ⟨hkey, hsorted⟩ := List.pairwise_cons.1 hsorted
      rw [requestsBelow]
      refine List.nodup_append.2 ⟨?_, nodup_requestsBelow hsorted hrest, ?_⟩
      · exact (nodup_requestsAt hvalue).map fun keys keys' heq => (List.cons.inj heq).2
      -- Requests below two members begin with different keys.
      · intro keys hkeys keys' hkeys' heq
        obtain ⟨_, -, rfl⟩ := List.mem_map.1 hkeys
        obtain ⟨key', value', _, rfl, hmember, -⟩ := mem_requestsBelow.1 hkeys'
        have hlt : key < key' := hkey _ hmember
        rw [(List.cons.inj heq).1] at hlt
        exact Std.lt_irrefl hlt

end

mutual

theorem no_dot_of_mem_requestsAt : ∀ {value : Json}, undottedAt value → ∀ keys ∈ requestsAt value,
    ∀ key ∈ keys, '.' ∉ key
  | .object members, h, keys, hkeys => no_dot_of_mem_requestsBelow h keys hkeys
  | .string text, _, keys, hkeys => by
      rw [requestsAt] at hkeys
      split at hkeys
      · rw [List.mem_singleton.1 hkeys]
        exact nofun
      · cases hkeys
  | .null, _, _, hkeys | .bool _, _, _, hkeys | .number _, _, _, hkeys | .array _, _, _, hkeys =>
      nomatch hkeys

/-- Keys that lead to a request contain no dot if none does. -/
theorem no_dot_of_mem_requestsBelow : ∀ {members : List (Text × Json)}, undottedBelow members →
    ∀ keys ∈ requestsBelow members, ∀ key ∈ keys, '.' ∉ key
  | [], _, _, hkeys => nomatch hkeys
  | (first, value) :: rest, h, keys, hkeys => by
      simp only [undottedBelow, Bool.and_eq_true, decide_eq_true_eq] at h
      obtain ⟨⟨hfirst, hvalue⟩, hrest⟩ := h
      rw [requestsBelow] at hkeys
      rcases List.mem_append.1 hkeys with hkeys | hkeys
      · obtain ⟨more, hmore, rfl⟩ := List.mem_map.1 hkeys
        exact List.forall_mem_cons.2 ⟨hfirst, no_dot_of_mem_requestsAt hvalue more hmore⟩
      · exact no_dot_of_mem_requestsBelow hrest keys hkeys

end

/-! Listed paths are written from the keys that lead to requests. -/

mutual

theorem secretsAt_eq_map (path : Text) : ∀ value, secretsAt path value = (requestsAt value).map
    (List.foldl extend path)
  | .object members => secretsBelow_eq_map path members
  | .string text => by
      rw [secretsAt, requestsAt]
      split <;> rfl
  | .null | .bool _ | .number _ | .array _ => rfl

/-- What is listed below an object are the keys that lead to requests, each after the path so
far. -/
theorem secretsBelow_eq_map (path : Text) :
    ∀ members, secretsBelow path members = (requestsBelow members).map (List.foldl extend path)
  | [] => rfl
  | (key, value) :: rest => by
      rw [secretsBelow, requestsBelow, List.map_append, List.map_map,
        secretsAt_eq_map (extend path key) value, secretsBelow_eq_map path rest]
      rfl

end

theorem foldl_extend_of_ne_nil (h : path ≠ []) : keys.foldl extend path = Text.join '.' (path :: keys) := by
  induction keys generalizing path with
  | nil => rfl
  | cons key rest ih =>
      have hextend : extend path key = path ++ '.' :: key := if_neg (by simpa using h)
      have hne : path ++ '.' :: key ≠ [] := List.append_ne_nil_of_left_ne_nil h _
      rw [List.foldl_cons, hextend, ih hne]
      cases rest with
      | nil => rfl
      | cons next more => simp [Text.join]

/-- The dots at the beginning of a path are lost when it is written key by key. -/
theorem foldl_extend_nil (h : ∀ key ∈ keys, '.' ∉ key) :
    keys.foldl extend [] = (Text.join '.' keys).dropWhile (· = '.') := by
  induction keys with
  | nil => rfl
  | cons key rest ih =>
      obtain ⟨hkey, hrest⟩ := List.forall_mem_cons.1 h
      change rest.foldl extend key = _
      cases key with
      | nil =>
          rw [ih hrest]
          cases rest <;> rfl
      | cons c more =>
          have hc : c ≠ '.' := fun heq => hkey (heq ▸ List.mem_cons_self)
          rw [foldl_extend_of_ne_nil (List.cons_ne_nil c more)]
          cases rest <;> simp [Text.join, hc]

/-! The list of a document. -/

namespace Document

/-- The data of a document that has been read, if its section is an object, are in order, and
lookups below them go on in them. -/
theorem data_of_parse {text : Text} (hparse : parse text = .ok document) {data : List (Text × Json)}
    (hdata : document.data? = some data) : (Json.object data).Ordered ∧
      ∀ path, document.AsksForSecret path ↔
      descend data (Text.split '.' path) = .ok (.string secretRequest) := by
  obtain ⟨hread, part, hpart, -⟩ := parse_eq_ok_iff.1 hparse
  obtain _ | _ | _ | _ | _ | ⟨-, hparts⟩ := Json.ordered_of_read hread
  obtain ⟨fields, hfields, hmembers⟩ : ∃ fields, Dictionary.get? sectionKey document.root = some
    (.object fields) ∧
      Dictionary.get? dataKey fields = some (.object data) := by
    rw [data?] at hdata
    split at hdata
    · next fields hfields =>
      split at hdata
      · next members hmembers =>
        cases hdata
        exact ⟨fields, hfields, hmembers⟩
      · cases hdata
    · cases hdata
  obtain _ | _ | _ | _ | _ | ⟨-, hvalues⟩ := hparts _ (Dictionary.mem_of_get? hfields)
  refine ⟨hvalues _ (Dictionary.mem_of_get? hmembers), fun path => ?_⟩
  rw [AsksForSecret, get_qualified hfields hmembers]
  cases descend data (Text.split '.' path) <;> simp [Except.mapError]

/-- If there are no data that can be reached by their key, no path asks for a secret. -/
theorem not_asks_of_data?_eq_none {text : Text} (hparse : parse text = .ok document)
    (hdata : document.data? = none) :
    ¬document.AsksForSecret path := by
  obtain ⟨-, part, hpart, hsection⟩ := parse_eq_ok_iff.1 hparse
  intro hasks
  rcases readSection_cases hsection with ⟨data, rest, rfl, -⟩ | ⟨fields, data, rfl, hfield, -⟩
  · have hkind : (Json.array (.object data :: rest)).kind ≠ .object := by simp [Json.kind]
    rw [AsksForSecret, get, split_qualified, descend_cons_of_not_object hpart hkind
      (List.cons_ne_nil _ _)] at hasks
    cases hasks
  · rw [data?, hpart] at hdata
    dsimp only at hdata
    rw [hfield] at hdata
    cases hdata

/-- The keys that lead to the requests for a secret in a document. -/
def requests (document : Document) : List (List Text) := (document.data?.map requestsBelow).getD []

theorem mem_requests : keys ∈ document.requests ↔ ∃ data, document.data? = some data ∧
    keys ∈ requestsBelow data := by
  rw [requests]
  cases document.data? <;> simp

/-- No key that can stand on a path into the data contains a dot. -/
def Undotted (document : Document) : Prop := ∀ data, document.data? = some data → undottedBelow data

instance (document : Document) : Decidable document.Undotted :=
  decidable_of_iff (document.data?.all undottedBelow) (by rw [Undotted]; cases document.data? <;> simp)

theorem no_dot_of_mem_requests (h : document.Undotted) (hkeys : keys ∈ document.requests) :
    ∀ key ∈ keys, '.' ∉ key := by
  obtain ⟨data, hdata, hkeys⟩ := mem_requests.1 hkeys
  exact no_dot_of_mem_requestsBelow (h data hdata) keys hkeys

theorem ne_nil_of_mem_requests (h : keys ∈ document.requests) : keys ≠ [] := by
  obtain ⟨data, -, hkeys⟩ := mem_requests.1 h
  exact ne_nil_of_mem_requestsBelow hkeys

theorem split_mem_requests_iff {text : Text} (hparse : parse text = .ok document) (path : Text) :
    Text.split '.' path ∈ document.requests ↔ document.AsksForSecret path := by
  rw [mem_requests]
  constructor
  · rintro ⟨data, hdata, hkeys⟩
    obtain ⟨hordered, hasks⟩ := data_of_parse hparse hdata
    exact (hasks path).2 ((mem_requestsBelow_iff_descend hordered).1 hkeys)
  · intro hpath
    cases hdata : document.data? with
    | none => exact absurd hpath (not_asks_of_data?_eq_none hparse hdata)
    | some data =>
        obtain ⟨hordered, hasks⟩ := data_of_parse hparse hdata
        exact ⟨data, rfl, (mem_requestsBelow_iff_descend hordered).2 ((hasks path).1 hpath)⟩

theorem nodup_requests {text : Text} (hparse : parse text = .ok document) : document.requests.Nodup := by
  rw [requests]
  cases hdata : document.data? with
  | none => exact List.nodup_nil
  | some data =>
      obtain ⟨_ | _ | _ | _ | _ | ⟨hsorted, hvalues⟩, -⟩ := data_of_parse hparse hdata
      exact nodup_requestsBelow hsorted hvalues

/-- The list has a path for each request, written from its keys. -/
theorem secrets_perm (document : Document) :
    document.secrets.Perm (document.requests.map (List.foldl extend [])) := by
  refine (List.mergeSort_perm _ _).trans (List.Perm.of_eq ?_)
  rw [requests]
  cases document.data? with
  | none => rfl
  | some data => exact secretsBelow_eq_map [] data

theorem secrets_sorted (document : Document) :
    document.secrets.Pairwise fun path path' => Utf8.encode path ≤ Utf8.encode path' := by
  have htrans : ∀ a b c : Text, !decide (b < a) → !decide (c < b) → !decide (c < a) := by
    intro a b c hab hbc
    simp only [Bool.not_eq_true', decide_eq_false_iff_not] at hab hbc ⊢
    exact fun hca => (Text.comparable.total a b).elim (fun hlt => hbc (Text.comparable.trans hca hlt))
      fun h => h.elim (fun heq => hbc (heq ▸ hca)) hab
  have htotal : ∀ a b : Text, (!decide (b < a) || !decide (a < b)) = true := by
    intro a b
    simp only [Bool.or_eq_true, Bool.not_eq_true', decide_eq_false_iff_not]
    exact (em (b < a)).symm.imp_right fun hlt hgt =>
      Text.comparable.irrefl _ (Text.comparable.trans hlt hgt)
  refine (List.pairwise_mergeSort htrans htotal _).imp fun {path path'} h => ?_
  intro hlt
  simp [Utf8.encode_lt_encode_iff.1 hlt] at h

/-- The paths that ask for a secret in a document without dots in its keys, each once and in
increasing order. -/
theorem exists_asking {text : Text} (hparse : parse text = .ok document) (hundotted : document.Undotted) :
    ∃ asking : List Text, asking.Pairwise (· < ·) ∧ (∀ path, path ∈ asking ↔ document.AsksForSecret path) ∧
      document.secrets.Perm (asking.map fun path => path.dropWhile (· = '.')) := by
  have hsplit : ∀ keys ∈ document.requests, Text.split '.' (Text.join '.' keys) = keys := fun keys hkeys =>
    Text.split_join (no_dot_of_mem_requests hundotted hkeys) (ne_nil_of_mem_requests hkeys)
  have hmem : ∀ path, path ∈ document.requests.map (Text.join '.') ↔ document.AsksForSecret path := by
    intro path
    rw [← split_mem_requests_iff hparse, List.mem_map]
    constructor
    · rintro ⟨keys, hkeys, rfl⟩
      rw [hsplit keys hkeys]
      exact hkeys
    · intro hpath
      exact ⟨_, hpath, Text.join_split '.' path⟩
  have hnodup : (document.requests.map (Text.join '.')).Nodup := by
    refine (nodup_requests hparse).map_on fun keys hkeys keys' hkeys' heq => ?_
    rw [← hsplit keys hkeys, heq, hsplit keys' hkeys']
  have hincreasing := Dictionary.increasing_distinct Text.comparable (document.requests.map (Text.join '.'))
  have hperm : (document.requests.map (Text.join '.')).Perm
      (Dictionary.distinct (document.requests.map (Text.join '.'))) :=
    (List.perm_ext_iff_of_nodup hnodup (hincreasing.imp Std.ne_of_lt)).2 fun path =>
      Dictionary.mem_distinct.symm
  refine ⟨_, hincreasing, fun path => Dictionary.mem_distinct.trans (hmem path), ?_⟩
  have hwritten : document.requests.map (List.foldl extend []) =
      (document.requests.map (Text.join '.')).map fun path => path.dropWhile (· = '.') := by
    rw [List.map_map]
    exact List.map_congr_left fun keys hkeys => foldl_extend_nil (no_dot_of_mem_requests hundotted hkeys)
  exact (hwritten ▸ document.secrets_perm).trans (hperm.map _)

theorem head?_dropWhile_dots (path : Text) : (path.dropWhile (· = '.')).head? ≠ some '.' := by
  intro h
  have hnot := List.head?_dropWhile_not (· = '.') path
  rw [h] at hnot
  simp at hnot

theorem dropWhile_dots_eq_self (h : path.head? ≠ some '.') : path.dropWhile (· = '.') = path := by
  cases path with
  | nil => rfl
  | cons c rest => exact List.dropWhile_cons_of_neg (by simpa using h)

/-- What a document that has been read lists as paths that ask for a secret, if no key below its
data contains a dot. A path asks for one if its value is drawn, and the list has one entry for each
such path, in the order of their bytes; but the dots at the beginning of a path are missing there.
So the list has these paths and no other if none of them begins with a dot, and only then, and it
has each of them once. -/
theorem secrets_of_parse {text : Text} (hparse : parse text = .ok document)
    (hundotted : document.Undotted) :
    (∀ path, document.value path = .ok .secret ↔
      document.get (qualified path) = .ok (.string secretRequest)) ∧
      document.secrets.Pairwise (fun path path' => Utf8.encode path ≤ Utf8.encode path') ∧
      (∃ asking : List Text, asking.Pairwise (fun path path' => Utf8.encode path < Utf8.encode path') ∧
        (∀ path, path ∈ asking ↔ document.value path = .ok .secret) ∧
        document.secrets.Perm (asking.map fun path => path.dropWhile (· = '.'))) ∧
      ((∀ path, path ∈ document.secrets ↔ document.value path = .ok .secret) ↔
        ∀ path, document.value path = .ok .secret → path.head? ≠ some '.') ∧
      ((∀ path, document.value path = .ok .secret → path.head? ≠ some '.') →
        document.secrets.Pairwise fun path path' => Utf8.encode path < Utf8.encode path') := by
  obtain ⟨asking, hincreasing, hmem, hperm⟩ := exists_asking hparse hundotted
  simp only [value_eq_secret_iff]
  have hself : (∀ path, document.AsksForSecret path → path.head? ≠ some '.') →
      document.secrets.Perm asking := by
    intro hnone
    have hmap : asking.map (fun path => path.dropWhile (· = '.')) = asking.map id :=
      List.map_congr_left fun path hpath => dropWhile_dots_eq_self (hnone path ((hmem path).1 hpath))
    rw [hmap, List.map_id] at hperm
    exact hperm
  refine ⟨fun _ => .rfl, document.secrets_sorted,
    ⟨asking, hincreasing.imp Utf8.encode_lt_encode, hmem, hperm⟩,
    ⟨fun hlisted path hpath hdot => ?_, fun hnone path => (hself hnone).mem_iff.trans (hmem path)⟩,
      fun hnone => ?_⟩
  · obtain ⟨path', -, rfl⟩ := List.mem_map.1 (hperm.mem_iff.1 ((hlisted path).2 hpath))
    exact head?_dropWhile_dots path' hdot
  · have hnodup : document.secrets.Nodup := (hself hnone).nodup_iff.2 (hincreasing.imp Std.ne_of_lt)
    refine (document.secrets_sorted.and hnodup).imp fun {path path'} h => ?_
    exact Std.lt_of_le_of_ne h.1 fun heq => h.2 (Utf8.encode_inj heq)

/-- A document with a request below an empty key. -/
def emptyKeyRaw : Text :=
  "\x7b\"placeholder\":\x7b\"data\":\x7b\"\":\x7b\"a\":\"$(velocity.secret)\"\x7d\x7d\x7d\x7d".toList

theorem secrets_of_parse_emptyKey : parse emptyKeyRaw = .ok (settingsOf emptyKeyRaw) ∧
    (settingsOf emptyKeyRaw).Undotted ∧ (settingsOf emptyKeyRaw).value ".a".toList = .ok .secret ∧
    (settingsOf emptyKeyRaw).value "a".toList ≠ .ok .secret ∧
    "a".toList ∈ (settingsOf emptyKeyRaw).secrets ∧
    ¬∀ path, path ∈ (settingsOf emptyKeyRaw).secrets ↔
    (settingsOf emptyKeyRaw).value path = .ok .secret := by
  have hparse : parse emptyKeyRaw = .ok (settingsOf emptyKeyRaw) := parse_eq_settingsOf (by decide +kernel)
  have hundotted : (settingsOf emptyKeyRaw).Undotted := by decide +kernel
  have hasks : (settingsOf emptyKeyRaw).value ".a".toList = .ok .secret := by decide +kernel
  obtain ⟨-, -, ⟨asking, -, hasking, hperm⟩, hexact, -⟩ := secrets_of_parse hparse hundotted
  refine ⟨hparse, hundotted, hasks, by decide +kernel, ?_, fun hlisted => ?_⟩
  · exact hperm.mem_iff.2 (List.mem_map.2 ⟨_, (hasking _).2 hasks, by decide +kernel⟩)
  · exact hexact.1 hlisted _ hasks (by decide +kernel)

end Document

end ServerPack.Settings
