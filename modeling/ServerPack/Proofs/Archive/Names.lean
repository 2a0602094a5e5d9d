import ServerPack.Proofs.Archive.Outcomes
import ServerPack.Proofs.Text.Utf8

/-!
Archives of different times have different names. Numbers are written with leading zeros and can be
read back (`padded_inj`), and between them stand characters that are no digits, so that the name of
an archive gives the local time to the second (`nameAt_eq_iff`).
-/

namespace ServerPack.Archive

theorem padded_inj {width n n' : Nat} (h : padded width n = padded width n') : n = n' := by
  have hvalue : ∀ n, Nat.ofDigitChars 10 (padded width n) 0 = n := fun n => by
    rw [padded, Nat.ofDigitChars_append, Nat.ofDigitChars_replicate_zero, Nat.mul_zero,
      Nat.ofDigitChars_ten_toDigits]
  calc
    n = Nat.ofDigitChars 10 (padded width n) 0 := (hvalue n).symm
    _ = Nat.ofDigitChars 10 (padded width n') 0 := by rw [h]
    _ = n' := hvalue n'

theorem padded_ne_nil (width n : Nat) : padded width n ≠ [] := fun h =>
  Nat.toDigits_ne_nil (List.append_eq_nil_iff.1 h).2

/-- Digits end where something else comes. -/
theorem digits_append_inj {digits digits' s s' : Text} {c c' : Char}
    (h : digits ++ c :: s = digits' ++ c' :: s') (hdigits : ∀ d ∈ digits, d.isDigit)
    (hdigits' : ∀ d ∈ digits', d.isDigit) (hc : c.isDigit = false) (hc' : c'.isDigit = false) :
    digits = digits' ∧ s = s' := by
  induction digits generalizing digits' with
  | nil =>
      cases digits' with
      | nil => exact ⟨rfl, (List.cons.inj h).2⟩
      | cons d' rest' =>
          have hdigit := hdigits' d' List.mem_cons_self
          rw [← (List.cons.inj h).1, hc] at hdigit
          cases hdigit
  | cons d rest ih =>
      cases digits' with
      | nil =>
          have hdigit := hdigits d List.mem_cons_self
          rw [(List.cons.inj h).1, hc'] at hdigit
          cases hdigit
      | cons d' rest' =>
          obtain ⟨rfl, hrest⟩ := List.cons.inj h
          obtain ⟨rfl, hs⟩ := ih hrest (fun d hd => hdigits d (List.mem_cons_of_mem _ hd))
            fun d hd => hdigits' d (List.mem_cons_of_mem _ hd)
          exact ⟨rfl, hs⟩

theorem padded_append_inj {width n n' : Nat} {c c' : Char} {s s' : Text}
    (h : padded width n ++ c :: s = padded width n' ++ c' :: s') (hc : c.isDigit = false)
    (hc' : c'.isDigit = false) :
    n = n' ∧ s = s' := by
  obtain ⟨hdigits, hs⟩ := digits_append_inj h (fun _ => digit_of_mem_padded)
    (fun _ => digit_of_mem_padded) hc hc'
  exact ⟨padded_inj hdigits, hs⟩

/-- The sign of a year is written before its digits if it is written at all. -/
theorem yearText_cases (year : Int) : (0 ≤ year ∧ year ≤ 9999 ∧ yearText year = padded 4 year.natAbs) ∨
    (year < 0 ∧ yearText year = '-' :: padded 4 year.natAbs) ∨
    9999 < year ∧ yearText year = '+' :: padded 4 year.natAbs := by
  rw [yearText]
  split
  · next h => exact .inl ⟨h.1, h.2, rfl⟩
  · next h =>
    split
    · next hneg => exact .inr (.inl ⟨hneg, rfl⟩)
    · exact .inr (.inr ⟨by omega, rfl⟩)

theorem yearText_append_inj {year year' : Int} {s s' : Text}
    (h : yearText year ++ '-' :: s = yearText year' ++ '-' :: s') :
    year = year' ∧ s = s' := by
  have hfirst : ∀ (n : Nat) (c : Char) (rest rest' : Text), padded 4 n ++ rest = c :: rest' →
      c.isDigit := by
    intro n c rest rest' heq
    obtain ⟨d, more, hmore⟩ := List.exists_cons_of_ne_nil (padded_ne_nil 4 n)
    rw [hmore] at heq
    exact (List.cons.inj heq).1 ▸ digit_of_mem_padded (hmore ▸ List.mem_cons_self)
  have hsign : ∀ {n n' : Nat}, padded 4 n ++ '-' :: s = padded 4 n' ++ '-' :: s' → n = n' ∧
      s = s' := fun heq =>
    padded_append_inj heq rfl rfl
  rcases yearText_cases year with ⟨hlow, hhigh, hyear⟩ | ⟨hneg, hyear⟩ | ⟨hbig, hyear⟩ <;>
    rcases yearText_cases year' with ⟨hlow', hhigh', hyear'⟩ | ⟨hneg', hyear'⟩ | ⟨hbig', hyear'⟩ <;>
    rw [hyear, hyear'] at h
  · exact ⟨by have := (hsign h).1; omega, (hsign h).2⟩
  · cases hfirst _ _ _ _ h
  · cases hfirst _ _ _ _ h
  · cases hfirst _ _ _ _ h.symm
  · have hsame := hsign (List.cons.inj h).2
    exact ⟨by omega, hsame.2⟩
  · cases (List.cons.inj h).1
  · cases hfirst _ _ _ _ h.symm
  · cases (List.cons.inj h).1
  · have hsame := hsign (List.cons.inj h).2
    exact ⟨by omega, hsame.2⟩

/-- Two archives have the same name if their local times are the same to the second. -/
theorem nameAt_eq_iff {now now' : Instant} : nameAt now = nameAt now' ↔
    LocalTime.of now = LocalTime.of now' := by
  refine ⟨fun h => ?_, fun h => by rw [nameAt, nameAt, h]⟩
  simp only [nameAt, List.append_assoc, List.cons_append] at h
  generalize LocalTime.of now = time at h ⊢
  generalize LocalTime.of now' = time' at h ⊢
  obtain ⟨hyear, h⟩ := yearText_append_inj h
  obtain ⟨hmonth, h⟩ := padded_append_inj h rfl rfl
  obtain ⟨hday, h⟩ := padded_append_inj h rfl rfl
  obtain ⟨hhour, h⟩ := padded_append_inj h rfl rfl
  obtain ⟨hminute, h⟩ := padded_append_inj h rfl rfl
  have hsecond := padded_inj (List.append_cancel_right h)
  cases time
  cases time'
  simp only [LocalTime.mk.injEq]
  exact ⟨hyear, hmonth, hday, hhour, hminute, hsecond⟩

end ServerPack.Archive
