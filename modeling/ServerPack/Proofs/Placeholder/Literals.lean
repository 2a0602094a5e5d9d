import Mathlib.Data.List.Infix
import ServerPack.Proofs.Placeholder.Occurrences

/-!
Writing and finding are inverse to each other. In the literal of a placeholder nothing but this
placeholder is found, whatever its path may hold (`occurringIn_literal`). Conversely a reference
that is written in a body is never passed over. What is found where it stands may open earlier in
the same stretch, and then the path that is found ends with the whole of the reference
(`Form.OpensIn.eq_or_suffix`); if a text form is left out there, it is the number form of the same
path that is found (`mem_pathsIn_of_textWritten`). Together: `occurringIn_covers_literals`.
-/

namespace ServerPack

namespace Form

variable {form : Form} {stretch before found path other : Text}

/-- Only the first character of the opening of text forms is a dollar sign. -/
theorem opening_text : Form.text.opening = '$' :: "(mcp.".toList := by decide

/-- An opening cannot begin inside another one: between the first opening of a stretch and a later
one stands the whole of it. -/
theorem OpensIn.eq_or_suffix (h : Form.text.OpensIn stretch before found)
    (hstretch : stretch = other ++ Form.text.opening ++ path) : found = path ∨
    Form.text.opening ++ path <:+ found := by
  have hdollar : '$' ∉ "(mcp.".toList := by decide
  have hle : before.length ≤ other.length := h.first hstretch
  have heq : before ++ (Form.text.opening ++ found) = other ++ (Form.text.opening ++ path) := by
    rw [← List.append_assoc, ← List.append_assoc, ← h.eq, hstretch]
  obtain ⟨between, rfl⟩ : before <+: other :=
    List.prefix_of_prefix_length_le ⟨_, heq⟩ (List.prefix_append _ _) hle
  rw [List.append_assoc, List.append_cancel_left_eq] at heq
  cases between with
  | nil => exact .inl (List.append_cancel_left heq)
  | cons c between =>
      apply Or.inr
      rw [opening_text, List.cons_append, List.cons_append, List.cons.injEq] at heq
      rcases List.append_eq_append_iff.1 heq.2 with ⟨rest, -, hfound⟩ | ⟨rest, hopening, hpath⟩
      · exact ⟨rest, by rw [opening_text, ← hfound]⟩
      · -- the later opening would begin inside the first one
        cases rest with
        | nil => exact ⟨[], hpath⟩
        | cons d rest =>
            obtain rfl : '$' = d := (List.cons.inj hpath).1
            exact absurd (hopening ▸ List.mem_append_right between List.mem_cons_self) hdollar

/-- A path that is written is not empty and ends in front of a closing parenthesis. -/
theorem Written.findable {stretches : List Text} {k : Nat} {uncounted : Text}
    (h : form.Written stretches k uncounted before path)
    (hstretches : ∀ stretch ∈ stretches, ')' ∉ stretch) :
    path ≠ [] ∧ ')' ∉ path := by
  obtain ⟨free, front, after, hdrop, rfl, hopens, -⟩ := h
  exact ⟨hopens.ne_nil, hopens.closing (free_closing hstretches hdrop)⟩

end Form

namespace Placeholder

variable {body path before : Text} {k : Nat}

/-! What is found in a literal. -/

/-- A text form has no room for a number form: that has two closing parentheses. -/
theorem number_occurrences_literal_text (hparen : ')' ∉ path) :
    Form.number.occurrences (literal ⟨path, .text⟩) = [] := by
  refine List.eq_nil_iff_forall_not_mem.2 fun occurrence hmem => ?_
  have hinfix : literal ⟨occurrence.path, .number⟩ <:+: literal ⟨path, .text⟩ :=
    Form.literal_infix_of_mem_occurrencesFrom hmem
  have hcount : (literal ⟨occurrence.path, .number⟩).count ')' ≤ (literal ⟨path, .text⟩).count ')' :=
    hinfix.sublist.count_le ')'
  rw [Form.literal_number, Form.literal_text, Form.literal_text] at hcount
  simp [List.count_eq_zero_of_not_mem hparen] at hcount

/-- In the literal of a placeholder this one is found and no other. -/
theorem occurringIn_literal (hne : path ≠ []) (hparen : ')' ∉ path) (form : Form) :
    occurringIn (literal ⟨path, form⟩) = [⟨path, form⟩] := by
  have hself : ∀ form : Form, form.occurrences (literal ⟨path, form⟩) = [⟨path, 0, form.width path⟩] := by
    intro form
    have hfound : form.occurrencesFrom 0 0 (literal ⟨path, form⟩ ++ []) =
        ⟨path, 0, 0 + form.width path⟩ :: form.occurrencesFrom (0 + form.width path) 0 [] :=
      Form.occurrencesFrom_literal hne hparen 0 []
    rwa [List.append_nil, Nat.zero_add] at hfound
  cases form with
  | text =>
      rw [occurringIn, number_occurrences_literal_text hparen, hself]
      rfl
  | number =>
      have hquote : Form.text.Silent ['"'] (literal ⟨path, .text⟩ ++ "(number)\"".toList) :=
        Form.silent_text (by decide) _
      have hmark : Form.text.Silent "(number)\"".toList [] := Form.silent_text (by decide) []
      have htext : Form.text.occurrences (literal ⟨path, .number⟩) =
          [⟨path, 1, 1 + Form.text.width path⟩] := by
        have hrest := Form.occurrencesFrom_silent hmark (1 + Form.text.width path)
        rw [List.append_nil] at hrest
        rw [Form.literal_number, Form.occurrences, ← List.singleton_append,
          Form.occurrencesFrom_silent hquote,
          Form.occurrencesFrom_literal hne hparen, List.length_singleton, Nat.zero_add, hrest]
        rfl
      have hinside : Occurrence.inside ⟨path, 1, 1 + Form.text.width path⟩
          ⟨path, 0, Form.number.width path⟩ = true := by
        have hwidth := Form.width_number path
        simp only [Occurrence.inside, Bool.and_eq_true, decide_eq_true_eq]
        omega
      simp [occurringIn, hself, htext, hinside, Dictionary.distinct, Dictionary.insertMember]

/-! What is written in a body. -/

/-- A text form that is left out lies in a number form with the same path. -/
theorem mem_pathsIn_of_textWritten (h : TextWritten (Text.split ')' body) k before path) :
    path ∈ pathsIn body := by
  apply mem_pathsIn.2
  by_cases hinside : ∃ before' path', NumberWritten (Text.split ')' body) k before' path' ∧
    before = before' ++ ['"']
  · obtain ⟨before', path', hnumber, rfl⟩ := hinside
    obtain ⟨stretch, after, hdrop, hopens⟩ := h.exists_opensIn
    obtain ⟨stretch', rest, more, hdrop', hstretch'⟩ := hnumber.exists_eq
    obtain ⟨rfl, -⟩ := List.cons_eq_cons.1 (hdrop.symm.trans hdrop')
    have hopening : Form.number.opening = ['"'] ++ Form.text.opening := by decide
    have hpath : path = path' := by
      have heq := hopens.eq.symm.trans hstretch'
      rw [hopening, ← List.append_assoc] at heq
      exact List.append_cancel_left heq
    exact ⟨.number, (number_mem_occurringIn_iff body).2 ⟨k, before', hpath ▸ hnumber⟩⟩
  · refine ⟨.text, (text_mem_occurringIn_iff body).2 ⟨k, before, h, fun before' path' hnumber heq => ?_⟩⟩
    exact hinside ⟨before', path', hnumber, heq⟩

/-- Where a reference is written its path is found, or a longer one that ends with the reference. -/
theorem exists_mem_pathsIn (hne : path ≠ []) (hparen : ')' ∉ path) (h : literal ⟨path, .text⟩ <:+: body) :
    ∃ found ∈ pathsIn body, found = path ∨ Form.text.opening ++ path <:+ found := by
  obtain ⟨front, rest, hbody⟩ := h
  have htail : ')' ∉ Form.text.opening ++ path := by
    have hopening : ')' ∉ Form.text.opening := by decide
    simp [hopening, hparen]
  obtain ⟨k, last, hdrop⟩ := Text.exists_drop_split htail front rest
  have hwhole : front ++ (Form.text.opening ++ path) ++ ')' :: rest = body := by
    rw [← hbody, literal, Form.closing_text]
    simp only [List.append_assoc, List.cons_append, List.nil_append]
  rw [hwhole, ← List.append_assoc] at hdrop
  obtain ⟨before, found, hopens⟩ : ∃ before found,
      Form.text.OpensIn (last ++ Form.text.opening ++ path) before found :=
    Form.exists_opensIn rfl hne
  have hwritten : TextWritten (Text.split ')' body) k before found :=
    ⟨_, before, _, hdrop, rfl, hopens, Text.split_ne_nil ')' rest⟩
  exact ⟨found, mem_pathsIn_of_textWritten hwritten, hopens.eq_or_suffix rfl⟩

/-- What is found has a path that can be found again, and its literal stands in the body. -/
theorem findable_of_mem {placeholder : Placeholder} (h : placeholder ∈ occurringIn body) :
    placeholder.path ≠ [] ∧ ')' ∉ placeholder.path ∧ placeholder.literal <:+: body := by
  have hstretches : ∀ stretch ∈ Text.split ')' body, ')' ∉ stretch := fun _ => Text.not_mem_of_mem_split
  have hpath : placeholder.path ≠ [] ∧ ')' ∉ placeholder.path := by
    obtain ⟨path, form⟩ := placeholder
    cases form with
    | number =>
        obtain ⟨k, before, lead, -, hwritten⟩ := (number_mem_occurringIn_iff body).1 h
        exact hwritten.findable hstretches
    | text =>
        obtain ⟨k, before, hwritten, -⟩ := (text_mem_occurringIn_iff body).1 h
        exact Form.Written.findable hwritten hstretches
  exact ⟨hpath.1, hpath.2, literal_infix_of_mem h⟩

/-- In whatever form a placeholder is written, a reference stands in its literal. -/
theorem reference_infix_literal (placeholder : Placeholder) :
    literal ⟨placeholder.path, .text⟩ <:+: placeholder.literal := by
  obtain ⟨path, form⟩ := placeholder
  cases form with
  | text => exact List.infix_rfl
  | number =>
      rw [Form.literal_number]
      exact ⟨['"'], "(number)\"".toList, rfl⟩

/-- Finding is the inverse of writing. From the literal of a placeholder, the path of which may hold
anything but a closing parenthesis, exactly this placeholder is found. From any body only
placeholders are found that can be written again and whose literals stand in it. A reference that is
written in it is found under its path, or under a longer one that ends with the whole opening and
path of the reference; so nothing is found only where nothing is written. -/
theorem occurringIn_covers_literals :
    (∀ path form, path ≠ [] → ')' ∉ path → occurringIn (literal ⟨path, form⟩) = [⟨path, form⟩]) ∧
    ∀ body,
      (∀ placeholder ∈ occurringIn body,
        placeholder.path ≠ [] ∧ ')' ∉ placeholder.path ∧ placeholder.literal <:+: body) ∧
      (∀ path, path ≠ [] → ')' ∉ path → literal ⟨path, .text⟩ <:+: body →
        ∃ placeholder ∈ occurringIn body, placeholder.path = path ∨
        Form.text.opening ++ path <:+ placeholder.path) ∧
      (occurringIn body = [] ↔ ∀ path, path ≠ [] → ')' ∉ path → ¬literal ⟨path, .text⟩ <:+: body) := by
  refine ⟨fun path form hne hparen => occurringIn_literal hne hparen form, fun body => ?_⟩
  have hcovers : ∀ path, path ≠ [] → ')' ∉ path → literal ⟨path, .text⟩ <:+: body →
      ∃ placeholder ∈ occurringIn body, placeholder.path = path ∨
          Form.text.opening ++ path <:+ placeholder.path := by
    intro path hne hparen hwritten
    obtain ⟨found, hmem, hfound⟩ := exists_mem_pathsIn hne hparen hwritten
    obtain ⟨form, hform⟩ := mem_pathsIn.1 hmem
    exact ⟨⟨found, form⟩, hform, hfound⟩
  refine ⟨fun _ => findable_of_mem, hcovers, ?_, ?_⟩
  · intro hnone path hne hparen hwritten
    obtain ⟨placeholder, hmem, -⟩ := hcovers path hne hparen hwritten
    rw [hnone] at hmem
    cases hmem
  · intro hunwritten
    refine List.eq_nil_iff_forall_not_mem.2 fun placeholder hmem => ?_
    obtain ⟨hne, hparen, hliteral⟩ := findable_of_mem hmem
    exact hunwritten placeholder.path hne hparen ((reference_infix_literal placeholder).trans hliteral)

/-- A path with a quote, a line break and the opening of a reference in it. -/
def nestedPath : Text := "a\"\n$(mcp.b".toList

/-- A number form with this path is found as such, and the reference inside it under the path that
ends with it. -/
theorem occurringIn_covers_literals_nested :
    occurringIn (literal ⟨nestedPath, .number⟩) = [⟨nestedPath, .number⟩] ∧
      ∃ placeholder ∈ occurringIn (literal ⟨nestedPath, .number⟩),
        placeholder.path = ['b'] ∨ Form.text.opening ++ ['b'] <:+ placeholder.path := by
  obtain ⟨hliteral, hbodies⟩ := occurringIn_covers_literals
  obtain ⟨-, hcovers, -⟩ := hbodies (literal ⟨nestedPath, .number⟩)
  exact ⟨hliteral nestedPath .number (by decide) (by decide), hcovers ['b'] (by decide) (by decide)
    (by decide)⟩

end Placeholder

end ServerPack
