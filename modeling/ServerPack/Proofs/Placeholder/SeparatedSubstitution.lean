import ServerPack.Proofs.Json.StringPieces
import ServerPack.Proofs.Placeholder.FileSubstitution
import ServerPack.Proofs.Placeholder.SeparatedBody

/-!
Replacing the references of a separated body. A pattern is replaced reference by reference
(`replaceAll_render`), and what is left is separated again if the values bring in neither dollar
signs nor parentheses (`Separated.replace`). So replacing one path after the other is the same as
putting its value in place of every reference at once (`fill_render`). `cut` takes a text apart into
characters and references in the text form.
-/

namespace ServerPack

namespace Form

variable {form : Form} {path : Text}

section

variable (hne : path ≠ []) (hparen : ')' ∉ path)

include hne hparen

theorem replaceAll_cons_of_pathAt?_ne (value : Text) {c : Char} {rest : Text}
    (h : form.pathAt? (c :: rest) ≠ some path) :
    Text.replaceAll (Placeholder.literal ⟨path, form⟩) value (c :: rest) =
      c :: Text.replaceAll (Placeholder.literal ⟨path, form⟩) value rest :=
  Text.replaceAll_cons_of_not value fun hbegins => h (pathAt?_eq_some_iff.2 ⟨hne, hparen, hbegins⟩)

theorem replaceAll_silent (value : Text) {lead rest : Text} (h : form.Silent lead rest) :
    Text.replaceAll (Placeholder.literal ⟨path, form⟩) value (lead ++ rest) =
      lead ++ Text.replaceAll (Placeholder.literal ⟨path, form⟩) value rest := by
  induction lead with
  | nil => rfl
  | cons c lead ih =>
      rw [List.cons_append, replaceAll_cons_of_pathAt?_ne hne hparen value (by rw [h.1]; simp),
        ih h.2, List.cons_append]

end

end Form

namespace Segment

variable {form : Form} {path : Text} {segments rest : List Segment}

/-! Replacing references. -/

/-- Characters for a reference that has a value. -/
def replace (values : Form → Text → Option Text) : Segment → List Segment
  | .char c => [.char c]
  | .reference form path =>
    match values form path with
    | some value => value.map .char
    | none => [.reference form path]

theorem mem_flatMap_replace {values : Form → Text → Option Text} :
    .reference form path ∈ segments.flatMap (replace values) ↔
      .reference form path ∈ segments ∧ values form path = none := by
  rw [List.mem_flatMap]
  constructor
  · rintro ⟨c | ⟨form', path'⟩, hmem, hpart⟩
    · cases List.mem_singleton.1 hpart
    · rw [replace] at hpart
      split at hpart
      · simp at hpart
      · next hnone =>
        cases List.mem_singleton.1 hpart
        exact ⟨hmem, hnone⟩
  · rintro ⟨hmem, hnone⟩
    exact ⟨_, hmem, by rw [replace, hnone]; exact List.mem_singleton.2 rfl⟩

theorem flatMap_replace_eq_self {values : Form → Text → Option Text}
    (h : ∀ form path, .reference form path ∈ segments → values form path = none) :
    segments.flatMap (replace values) = segments := by
  induction segments with
  | nil => rfl
  | cons segment rest ih =>
      rw [List.flatMap_cons, ih fun form path hmem => h form path (List.mem_cons_of_mem _ hmem)]
      cases segment with
      | char c => rfl
      | reference form path => rw [replace, h form path List.mem_cons_self]; rfl

/-- Characters stay when references are replaced. -/
theorem flatMap_replace_map_char (values : Form → Text → Option Text) (text : Text) :
    (text.map char).flatMap (replace values) = text.map char :=
  flatMap_replace_eq_self fun form path hmem => by simp at hmem

theorem flatMap_replace_replace (values values' : Form → Text → Option Text) (segments : List Segment) :
    (segments.flatMap (replace values)).flatMap (replace values') =
      segments.flatMap (replace fun form path => (values form path).or (values' form path)) := by
  rw [List.flatMap_assoc]
  refine List.flatMap_congr fun segment _ => ?_
  cases segment with
  | char c => rfl
  | reference form path =>
      rw [replace, replace]
      cases values form path with
      | some value => exact flatMap_replace_map_char values' value
      | none => exact List.append_nil _

theorem render_map_char (text : Text) : render (text.map char) = text := by
  induction text with
  | nil => rfl
  | cons c rest ih => rw [List.map_cons, render_cons, ih]; rfl

theorem clear_append_map_char {text : Text} (h : '(' ∉ text) (hrest : Clear rest) :
    Clear (text.map char ++ rest) := by
  cases text with
  | nil => exact hrest
  | cons c text => exact fun heq => h (heq ▸ List.mem_cons_self)

theorem Separated.append_map_char {text : Text} (h : '$' ∉ text) (hrest : Separated rest) :
    Separated (text.map Segment.char ++ rest) := by
  induction text with
  | nil => exact hrest
  | cons c text ih =>
      obtain ⟨hc, htext⟩ := not_or.1 (mt List.mem_cons.2 h)
      exact .char (fun heq => absurd heq.symm hc) (ih htext)

/-- A value in which no reference can begin or go on. -/
structure Inert (value : Text) : Prop where
  dollar : '$' ∉ value
  paren : '(' ∉ value

theorem Clear.replace {values : Form → Text → Option Text}
    (hvalues : ∀ form path value, values form path = some value → Inert value)
    (hseparated : Separated segments) (h : Clear segments) : Clear (segments.flatMap (replace values)) := by
  induction segments with
  | nil => trivial
  | cons segment rest ih =>
      cases segment with
      | char c => exact h
      | reference form path =>
          rw [List.flatMap_cons, Segment.replace]
          split
          · next value hvalue =>
            cases hseparated with
            | reference _ hbehind hrest =>
                exact clear_append_map_char (hvalues _ _ _ hvalue).paren (ih hrest hbehind)
          · trivial

/-- References that are replaced leave the others apart. -/
theorem Separated.replace {values : Form → Text → Option Text}
    (hvalues : ∀ form path value, values form path = some value → Inert value) (h : Separated segments) :
    Separated (segments.flatMap (replace values)) := by
  induction h with
  | nil => exact .nil
  | char hdollar hrest ih => exact .char (fun hc => (hdollar hc).replace hvalues hrest) ih
  | foreign hc _ ih => exact .foreign hc ih
  | @reference form path rest hpath hbehind hrest ih =>
      rw [List.flatMap_cons, Segment.replace]
      split
      · next value hvalue => exact .append_map_char (hvalues _ _ _ hvalue).dollar ih
      · exact .reference hpath (hbehind.replace hvalues hrest) ih

/-- The value for one form of one path. -/
def only (path : Text) (form : Form) (value : Text) (form' : Form) (path' : Text) : Option Text :=
  if form' = form ∧ path' = path then some value else none

section

variable (hpath : IsPath path) (value : Text)

include hpath

theorem replaceAll_text {other : Text} (hother : IsPath other) (hne : form = .text → other ≠ path)
    (rest : Text) :
    Text.replaceAll (Placeholder.literal ⟨path, form⟩) value (Placeholder.literal ⟨other, .text⟩ ++ rest) =
      Placeholder.literal ⟨other, .text⟩ ++ Text.replaceAll
        (Placeholder.literal ⟨path, form⟩) value rest := by
  have hdollar : form.pathAt? (Placeholder.literal ⟨other, .text⟩ ++ rest) ≠ some path := by
    cases form with
    | text =>
        rw [pathAt?_reference hother]
        exact fun heq => hne rfl (Option.some.inj heq)
    | number =>
        rw [Form.literal_text, List.cons_append, Form.pathAt?_number_of_ne (by decide)]
        simp
  rw [Form.literal_text, List.cons_append] at hdollar ⊢
  rw [Form.replaceAll_cons_of_pathAt?_ne hpath.ne_nil hpath.closing value hdollar,
    Form.replaceAll_silent hpath.ne_nil hpath.closing value (hother.silent rest)]
  rfl

/-- A reference to another path, or in another form, is left alone. -/
theorem replaceAll_other {form' : Form} {other : Text} (h : Separated (.reference form' other :: rest))
    (hne : ¬(form' = form ∧ other = path)) (hnumber : form = .text → form' = .number → other ≠ path) :
    Text.replaceAll (Placeholder.literal ⟨path, form⟩) value
      (Placeholder.literal ⟨other, form'⟩ ++ render rest) =
      Placeholder.literal ⟨other, form'⟩ ++ Text.replaceAll (Placeholder.literal ⟨path, form⟩) value
        (render rest) := by
  cases h with
  | reference hother hbehind hrest =>
      cases form' with
      | text => exact replaceAll_text hpath value hother (fun hform heq => hne ⟨hform.symm, heq⟩) _
      | number =>
          have hquote : form.pathAt? (Placeholder.literal ⟨other, .number⟩ ++ render rest) ≠ some path := by
            cases form with
            | number =>
                rw [pathAt?_reference hother]
                exact fun heq => hne ⟨rfl, Option.some.inj heq⟩
            | text =>
                rw [Form.literal_number, List.cons_append, Form.pathAt?_text_of_ne (by decide)]
                simp
          have hmark : form.Silent "(number)\"".toList (render rest) := by
            cases form with
            | text => exact Form.silent_text (by decide) _
            | number =>
                have hlast : Form.number.Silent ['"'] (render rest) :=
                  ⟨pathAt?_number_cons hrest '"', trivial⟩
                exact @Form.silent_append _ "(number)".toList _ _ (Form.silent_number (by decide) _) hlast
          have htext : form = .text → other ≠ path := fun hform => hnumber hform rfl
          rw [Form.literal_number, List.cons_append, List.append_assoc] at hquote ⊢
          rw [Form.replaceAll_cons_of_pathAt?_ne hpath.ne_nil hpath.closing value hquote,
            replaceAll_text hpath value hother htext,
            Form.replaceAll_silent hpath.ne_nil hpath.closing value hmark]
          simp only [List.cons_append, List.append_assoc]

/-- In a separated body a pattern is replaced reference by reference. A text form is only replaced
when no number form of its path is left. -/
theorem replaceAll_render (h : Separated segments)
    (hnumber : form = .text → .reference .number path ∉ segments) :
    Text.replaceAll (Placeholder.literal ⟨path, form⟩) value (render segments) =
      render (segments.flatMap (replace (only path form value))) := by
  induction segments with
  | nil => rfl
  | cons segment rest ih =>
      have hrest := ih h.tail fun hform hmem => hnumber hform (List.mem_cons_of_mem _ hmem)
      rw [List.flatMap_cons, render_append, ← hrest, render_cons]
      cases segment with
      | char c =>
          have hsilent : form.Silent [c] (render rest) := ⟨pathAt?_char h, trivial⟩
          exact Form.replaceAll_silent hpath.ne_nil hpath.closing value hsilent
      | reference form' other =>
          rw [replace, only, text]
          by_cases hsame : form' = form ∧ other = path
          · obtain ⟨rfl, rfl⟩ := hsame
            rw [Text.replaceAll_pattern_append value (Form.literal_ne_nil ⟨other, form'⟩),
              if_pos ⟨rfl, rfl⟩]
            dsimp only
            rw [render_map_char]
          · rw [replaceAll_other hpath value h hsame ?_, if_neg hsame]
            · simp [render, text]
            · rintro hform rfl rfl
              exact hnumber hform List.mem_cons_self

end

/-! Replacing all references. -/

/-- The value for every form of one path. -/
def ofPath (path value : Text) (_ : Form) (path' : Text) : Option Text :=
    if path' = path then some value else none

/-- A part with the value for its path in place of a reference. -/
def fillWith (values : Text → Text) : Segment → Text
  | .char c => [c]
  | .reference _ path => values path

/-- A resolved path has the value that belongs to it and all forms in which it stands among the
parts, and that value brings in nothing that looks like a reference. -/
structure Covers (segments : List Segment) (values : Text → Text) (entry : Resolved) : Prop where
  path : IsPath entry.path
  forms : ∃ occurs : Form → Bool, entry.forms = [.number, .text].filter occurs
  covers (form : Form) : .reference form entry.path ∈ segments → form ∈ entry.forms
  value : entry.value = values entry.path
  inert : Inert entry.value

variable {values : Text → Text} {entry : Resolved}

theorem fillWith_map_char (values : Text → Text) (text : Text) :
    (text.map char).flatMap (fillWith values) = text := by
  induction text with
  | nil => rfl
  | cons c rest ih => rw [List.map_cons, List.flatMap_cons, ih]; rfl

theorem replaceIn_render (hseparated : Separated segments) (h : Covers segments values entry) :
    entry.replaceIn (render segments) = render
      (segments.flatMap (replace (ofPath entry.path entry.value))) := by
  obtain ⟨occurs, hforms⟩ := h.forms
  have hmem : ∀ {form}, .reference form entry.path ∈ segments → occurs form = true := fun hmem =>
    (List.mem_filter.1 (hforms ▸ h.covers _ hmem)).2
  have hplain : ∀ form form' path value, only entry.path form entry.value form' path = some value →
      Inert value := by
    intro form form' path value honly
    rw [only] at honly
    split at honly <;> cases honly
    exact h.inert
  -- A form that does not occur is replaced nowhere, so that both forms can be taken as replaced.
  have hstep : ∀ {form parts}, Separated parts → (form = .text → .reference .number entry.path ∉ parts) →
      (∀ {form}, .reference form entry.path ∈ parts → occurs form = true) →
      (if occurs form then Text.replaceAll (Placeholder.literal ⟨entry.path, form⟩) entry.value
        (render parts)
        else render parts) = render (parts.flatMap (replace (only entry.path form entry.value))) := by
    intro form parts hparts hnumber hoccurs
    split
    · exact replaceAll_render h.path _ hparts hnumber
    · next hnot =>
      rw [flatMap_replace_eq_self]
      rintro form' path hpath
      refine if_neg ?_
      rintro ⟨rfl, rfl⟩
      exact hnot (hoccurs hpath)
  have hnumber := @hstep .number _ hseparated (by simp) hmem
  have htext := @hstep .text _ (hseparated.replace (hplain .number))
    (fun _ hmem => absurd (mem_flatMap_replace.1 hmem).2 (by simp [only]))
    fun hreference => hmem (mem_flatMap_replace.1 hreference).1
  have hboth : (fun form path => (only entry.path .number entry.value form path).or
      (only entry.path .text entry.value form path)) = ofPath entry.path entry.value := by
    funext form path
    by_cases hpath : path = entry.path <;> cases form <;> simp [only, ofPath, hpath]
  rw [flatMap_replace_replace, hboth, ← hnumber] at htext
  rw [← htext, Resolved.replaceIn, hforms]
  cases hn : occurs .number <;> cases ht : occurs .text <;> simp [List.filter, hn, ht]

/-- Replacing path by path puts its value in place of each reference. -/
theorem fill_render {resolved : List Resolved} (hseparated : Separated segments)
    (h : ∀ entry ∈ resolved, Covers segments values entry)
    (hall : ∀ form path, .reference form path ∈ segments → ∃ entry ∈ resolved, entry.path = path) :
    fill resolved (render segments) = segments.flatMap (fillWith values) := by
  induction resolved generalizing segments with
  | nil =>
      refine List.flatMap_congr fun segment hmem => ?_
      cases segment with
      | char c => rfl
      | reference form path =>
          obtain ⟨entry, hentry, -⟩ := hall form path hmem
          cases hentry
  | cons entry resolved ih =>
      obtain ⟨hentry, hresolved⟩ := List.forall_mem_cons.1 h
      have hinert : ∀ form path value, ofPath entry.path entry.value form path = some value →
          Inert value := by
        intro form path value hvalue
        rw [ofPath] at hvalue
        split at hvalue <;> cases hvalue
        exact hentry.inert
      have hfill : fill (entry :: resolved) (render segments) = fill resolved
        (entry.replaceIn (render segments)) := rfl
      rw [hfill, replaceIn_render hseparated hentry, ih (hseparated.replace hinert)]
      · rw [List.flatMap_assoc]
        refine List.flatMap_congr fun segment _ => ?_
        rcases segment with c | ⟨form, path⟩
        · rfl
        · rw [replace, ofPath]
          by_cases hpath : path = entry.path
          · rw [if_pos hpath, hpath]
            dsimp only
            rw [fillWith, ← hentry.value]
            exact fillWith_map_char values entry.value
          · rw [if_neg hpath]
            exact List.append_nil _
      · intro other hother
        obtain ⟨hpath, hforms, hcovers, hvalue, hplain⟩ := hresolved other hother
        exact ⟨hpath, hforms, fun form hmem => hcovers form (mem_flatMap_replace.1 hmem).1, hvalue, hplain⟩
      · intro form path hmem
        obtain ⟨hreference, hnone⟩ := mem_flatMap_replace.1 hmem
        obtain ⟨other, hother, hpath⟩ := hall form path hreference
        rcases List.mem_cons.1 hother with rfl | hother
        · rw [ofPath, if_pos hpath.symm] at hnone
          cases hnone
        · exact ⟨other, hother, hpath⟩

/-! Cutting a text into parts. -/

/-- The parts of a text, the next characters of which belong to the part before. -/
def cutFrom : (skip : Nat) → Text → List Segment
  | _, [] => []
  | skip + 1, _ :: rest => cutFrom skip rest
  | 0, c :: rest =>
    match Form.text.pathAt? (c :: rest) with
    | some path => .reference .text path :: cutFrom (Form.text.width path - 1) rest
    | none => .char c :: cutFrom 0 rest

/-- A text as characters and text forms. -/
def cut (text : Text) : List Segment := cutFrom 0 text

theorem cutFrom_eq_cut_drop (skip : Nat) (text : Text) : cutFrom skip text = cut (text.drop skip) := by
  induction text generalizing skip with
  | nil => cases skip <;> rfl
  | cons c rest ih =>
      cases skip with
      | zero => rfl
      | succ skip => exact ih skip

theorem cut_cons_of_none {c : Char} {rest : Text} (h : Form.text.pathAt? (c :: rest) = none) :
    cut (c :: rest) = .char c :: cut rest := by
  rw [cut, cutFrom, h]
  rfl

theorem cut_of_not_mem {text : Text} (h : '$' ∉ text) : cut text = text.map char := by
  induction text with
  | nil => rfl
  | cons c rest ih =>
      obtain ⟨hc, hrest⟩ := not_or.1 (mt List.mem_cons.2 h)
      rw [cut_cons_of_none (Form.pathAt?_text_of_ne (Ne.symm hc) rest), ih hrest, List.map_cons]

theorem cut_literal_append (hne : path ≠ []) (hparen : ')' ∉ path) (rest : Text) :
    cut (Placeholder.literal ⟨path, .text⟩ ++ rest) = .reference .text path :: cut rest := by
  have hpath : Form.text.pathAt? (Placeholder.literal ⟨path, .text⟩ ++ rest) = some path :=
    Form.pathAt?_eq_some_iff.2 ⟨hne, hparen, List.prefix_append ..⟩
  have hlength := Form.length_literal .text path
  rw [Form.literal_text, List.cons_append] at hpath ⊢
  rw [Form.literal_text, List.length_cons] at hlength
  rw [cut, cutFrom, hpath]
  dsimp only
  rw [← hlength, Nat.add_sub_cancel, cutFrom_eq_cut_drop, List.drop_left]

theorem render_cut (text : Text) : render (cut text) = text := by
  induction hlength : text.length using Nat.strongRecOn generalizing text with
  | ind length ih =>
      cases text with
      | nil => rfl
      | cons c rest =>
          cases hpath : Form.text.pathAt? (c :: rest) with
          | none => rw [cut_cons_of_none hpath, render_cons,
            ih rest.length (by simp at hlength; omega) rest rfl]; rfl
          | some path =>
              obtain ⟨hne, hparen, rest', hrest⟩ := Form.pathAt?_eq_some_iff.1 hpath
              have hshorter : rest'.length < length := by
                rw [← hlength, ← hrest, List.length_append, Form.length_literal]
                exact Nat.lt_add_of_pos_left (Form.width_pos ..)
              rw [← hrest, cut_literal_append hne hparen, render_cons, ih rest'.length hshorter rest' rfl]
              rfl

/-- Every dollar sign in a text begins a text form that no parenthesis follows, and the path in it
is a good one. -/
def AllRefer (good : Text → Prop) (text : Text) : Prop :=
  ∀ first rest, text = first ++ '$' :: rest → ∃ path, Form.text.pathAt? ('$' :: rest) = some path ∧
    '$' ∉ path ∧
    good path ∧ ¬Placeholder.literal ⟨path, .text⟩ ++ ['('] <+: '$' :: rest

theorem AllRefer.of_append {good : Text → Prop} {first text : Text} (h : AllRefer good (first ++ text)) :
    AllRefer good text := fun before rest heq => h (first ++ before) rest (by rw [heq, List.append_assoc])

theorem isPath_of_pathAt? {text : Text} (h : form.pathAt? text = some path) (hdollar : '$' ∉ path) :
    IsPath path := by
  obtain ⟨hne, hparen, -⟩ := Form.pathAt?_eq_some_iff.1 h
  exact ⟨hne, hparen, fun hwithin => hdollar (hwithin.subset List.mem_cons_self)⟩

theorem clear_of_not_begins (h : ¬['('] <+: render segments) : Clear segments := by
  rcases segments with _ | ⟨c | ⟨form, path⟩, rest⟩
  · trivial
  · rintro rfl
    exact h ⟨render rest, rfl⟩
  · trivial

theorem clear_cut_append {text : Text} (h : ¬['('] <+: text) (hrest : Clear rest) :
    Clear (cut text ++ rest) := by
  cases text with
  | nil => exact hrest
  | cons c more =>
      cases hpath : Form.text.pathAt? (c :: more) with
      | none =>
          rw [cut_cons_of_none hpath]
          rintro rfl
          exact h ⟨more, rfl⟩
      | some path =>
          rw [cut, cutFrom, hpath]
          trivial

/-- A text is cut into parts that stand apart if every dollar sign in it begins a reference. -/
theorem separated_cut {good : Text → Prop} {text : Text} (h : AllRefer good text)
    (hseparated : Separated rest) (hclear : Clear rest) : Separated (cut text ++ rest) ∧
      ∀ form path, .reference form path ∈ cut text → form = .text ∧ IsPath path ∧ good path := by
  induction hlength : text.length using Nat.strongRecOn generalizing text with
  | ind length ih =>
      cases text with
      | nil => exact ⟨hseparated, by simp [cut, cutFrom]⟩
      | cons c more =>
          cases hpath : Form.text.pathAt? (c :: more) with
          | none =>
              have hc : c ≠ '$' := by
                rintro rfl
                obtain ⟨path, hsome, -⟩ := h [] more rfl
                cases hpath.symm.trans hsome
              obtain ⟨hmore, hgood⟩ := ih more.length (by simp at hlength; omega)
                (@AllRefer.of_append _ [c] more h) rfl
              rw [cut_cons_of_none hpath]
              exact ⟨.char (fun heq => absurd heq hc) hmore, fun form path hmem =>
                hgood form path ((List.mem_cons.1 hmem).resolve_left (by simp))⟩
          | some path =>
              obtain ⟨hne, hparen, more', hmore'⟩ := Form.pathAt?_eq_some_iff.1 hpath
              obtain rfl : c = '$' := by
                rw [Form.literal_text] at hmore'
                exact (List.cons_eq_cons.1 hmore').1.symm
              obtain ⟨path', hsome, hdollar, hpathGood, hbehind⟩ := h [] more rfl
              obtain rfl : path' = path := Option.some.inj (hsome.symm.trans hpath)
              have hshorter : more'.length < length := by
                rw [← hlength, ← hmore', List.length_append, Form.length_literal]
                exact Nat.lt_add_of_pos_left (Form.width_pos ..)
              rw [← hmore'] at h hbehind ⊢
              obtain ⟨hmore, hgood⟩ := ih more'.length hshorter h.of_append rfl
              have hpath' : IsPath path' := isPath_of_pathAt? hpath hdollar
              have hparen' : ¬['('] <+: more' := fun hbegins =>
                hbehind ((List.prefix_append_right_inj _).2 hbegins)
              rw [cut_literal_append hne hparen]
              refine ⟨.reference hpath' (clear_cut_append hparen' hclear) hmore, fun form path hmem => ?_⟩
              rcases List.mem_cons.1 hmem with heq | hmem
              · cases heq
                exact ⟨rfl, hpath', hpathGood⟩
              · exact hgood form path hmem

end Segment

end ServerPack
