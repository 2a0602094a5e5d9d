/-!
Texts and byte strings. A text is a list of Unicode scalar values and a byte string a list of
octets; bodies, settings and paths of placeholders are texts, file names and file contents are byte
strings. Both are compared lexicographically by element, so texts are ordered as their UTF-8 forms
are. `split` cuts a list at a separator (`split_append`) and `join` puts it back: `join_split`.
-/

namespace ServerPack

/-- A text: its Unicode scalar values in order. -/
abbrev Text := List Char

/-- A byte string. -/
abbrev Bytes := List UInt8

namespace Text

variable {α : Type} [DecidableEq α]

/-- The pieces of a list between the occurrences of a separator; there is always at least one. -/
def split (separator : α) : List α → List (List α)
  | [] => [[]]
  | a :: rest =>
    if a = separator then [] :: split separator rest
    else match split separator rest with
      | [] => [[a]]
      | piece :: pieces => (a :: piece) :: pieces

/-- The pieces with a separator between each two. -/
def join (separator : α) : List (List α) → List α
  | [] => []
  | [piece] => piece
  | piece :: pieces => piece ++ separator :: join separator pieces

theorem split_ne_nil (separator : α) (l : List α) : split separator l ≠ [] := by
  cases l with
  | nil => simp [split]
  | cons a rest =>
    rw [split]
    split
    · simp
    · split <;> simp

@[simp] theorem join_split (separator : α) (l : List α) : join separator (split separator l) = l := by
  induction l with
  | nil => rfl
  | cons a rest ih =>
    rw [split]
    split
    · next h =>
      obtain ⟨piece, pieces, hp⟩ := List.exists_cons_of_ne_nil (split_ne_nil separator rest)
      rw [hp] at ih ⊢
      simp [join, ih, h]
    · next h =>
      obtain ⟨piece, pieces, hp⟩ := List.exists_cons_of_ne_nil (split_ne_nil separator rest)
      rw [hp] at ih ⊢
      cases pieces with
      | nil => simpa [join] using ih
      | cons next more => simpa [join] using ih

/-- The pieces of two lists with a separator between them. -/
theorem split_append (separator : α) (l l' : List α) :
    split separator (l ++ separator :: l') = split separator l ++ split separator l' := by
  induction l with
  | nil => simp [split]
  | cons a rest ih =>
    obtain ⟨piece, pieces, hp⟩ := List.exists_cons_of_ne_nil (split_ne_nil separator rest)
    rw [List.cons_append, split, split, ih, hp]
    by_cases h : a = separator <;> simp [h]

/-- A list without the separator is one piece. -/
theorem split_eq_singleton {separator : α} {l : List α} (h : separator ∉ l) : split separator l = [l] := by
  induction l with
  | nil => rfl
  | cons a rest ih =>
    obtain ⟨ha, hrest⟩ := not_or.1 (mt List.mem_cons.2 h)
    rw [split, if_neg (Ne.symm ha), ih hrest]

end Text

end ServerPack
