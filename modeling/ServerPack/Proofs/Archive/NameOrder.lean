import ServerPack.Proofs.Archive.Names
import ServerPack.Proofs.Calendar

/-!
Names of archives sort as the times at which they were taken (`nameAt_chronological`). A number with
leading zeros is written digit by digit from its end (`padded_succ`), so numbers of one width are in
the order of their texts whatever comes behind them (`padded_append_lt`), and a name is such numbers
with the same marks between them.
-/

namespace ServerPack.Archive

theorem digitChar_lt_digitChar {m n : Nat} (hn : n < 10) (h : m < n) :
    Nat.digitChar m < Nat.digitChar n := by
  change (Nat.digitChar m).toNat < (Nat.digitChar n).toNat
  rw [Nat.toNat_digitChar_of_lt_ten (h.trans hn), Nat.toNat_digitChar_of_lt_ten hn]
  exact Nat.add_lt_add_left h 48

theorem padded_one {n : Nat} (h : n < 10) : padded 1 n = [Nat.digitChar n] := by
  rw [padded, Nat.toDigits_of_lt_base h]
  rfl

theorem padded_succ {width : Nat} (hwidth : 0 < width) (n : Nat) :
    padded (width + 1) n = padded width (n / 10) ++ [Nat.digitChar (n % 10)] := by
  rcases lt_or_ge n 10 with h | h
  · -- The digits before the only one are zeros, the last of which is the number 0 itself.
    obtain ⟨zeros, rfl⟩ := Nat.exists_eq_succ_of_ne_zero hwidth.ne'
    rw [padded, padded, Nat.toDigits_of_lt_base h, Nat.div_eq_of_lt h, Nat.mod_eq_of_lt h,
      Nat.toDigits_zero]
    simp [List.replicate_succ']
  · rw [padded, padded, Nat.toDigits_of_base_le (by decide) h]
    simp

theorem padded_append_lt {width m n : Nat} (hwidth : 0 < width) (hn : n < 10 ^ width) (h : m < n)
    (s t : Text) :
    padded width m ++ s < padded width n ++ t := by
  induction width, hwidth using Nat.le_induction generalizing m n s t with
  | base =>
      rw [padded_one hn, padded_one (h.trans hn)]
      exact List.Lex.rel (digitChar_lt_digitChar hn h)
  | succ width hwidth ih =>
      rw [padded_succ hwidth, padded_succ hwidth, List.append_assoc, List.append_assoc]
      have htens : m / 10 ≤ n / 10 := Nat.div_le_div_right h.le
      rcases htens.lt_or_eq with hlt | heq
      · exact ih (by omega) hlt _ _
      · rw [heq]
        exact List.append_left_lt (List.Lex.rel (digitChar_lt_digitChar (by omega) (by omega)))

theorem padded_append_cons_lt {width m n : Nat} (hwidth : 0 < width) (hn : n < 10 ^ width)
    (c : Char) {s t : Text} (h : m < n ∨ m = n ∧ s < t) :
    padded width m ++ c :: s < padded width n ++ c :: t := by
  rcases h with hlt | ⟨rfl, hrest⟩
  · exact padded_append_lt hwidth hn hlt _ _
  · exact List.append_left_lt (List.Lex.cons hrest)

theorem yearText_eq {year : Int} (h : 0 ≤ year ∧ year ≤ 9999) :
    yearText year = padded 4 year.natAbs := if_pos h

/-- All parts of a local time but its year have at most two digits. -/
theorem two_digits (now : Instant) (hnano : now.nanoseconds < 1000000000) :
    (LocalTime.of now).month < 100 ∧ (LocalTime.of now).day < 100 ∧ (LocalTime.of now).hour < 100 ∧
      (LocalTime.of now).minute < 100 ∧ (LocalTime.of now).second < 100 := by
  have hdate : Calendar.IsDate ((LocalTime.of now).year, (LocalTime.of now).month,
      (LocalTime.of now).day) :=
    Calendar.isDate_dateOf _
  obtain ⟨-, hmonth, -, hday⟩ := hdate
  have hlength := Calendar.daysOfMonth_le (LocalTime.of now).year (LocalTime.of now).month
  refine ⟨by omega, by omega, ?_⟩
  simp only [LocalTime.of]
  omega

variable {now now' : Instant}

theorem nameAt_lt (hnano' : now'.nanoseconds < 1000000000)
    (hyear : 0 ≤ (LocalTime.of now).year ∧ (LocalTime.of now).year ≤ 9999)
    (hyear' : 0 ≤ (LocalTime.of now').year ∧ (LocalTime.of now').year ≤ 9999)
    (h : (LocalTime.of now).units < (LocalTime.of now').units) : nameAt now < nameAt now' := by
  obtain ⟨hmonth, hday, hhour, hminute, hsecond⟩ := two_digits now' hnano'
  simp only [LocalTime.units, Prod.Lex.toLex_lt_toLex] at h
  simp only [nameAt, yearText_eq hyear, yearText_eq hyear', List.append_assoc, List.cons_append]
  -- Part by part: either it decides, or it is the same in both and the rest of the names does.
  apply padded_append_cons_lt (by decide) (by omega)
  refine h.imp (by omega) (.imp (by omega) fun h => ?_)
  apply padded_append_cons_lt (by decide) hmonth
  refine h.imp_right (.imp_right fun h => ?_)
  apply padded_append_cons_lt (by decide) hday
  refine h.imp_right (.imp_right fun h => ?_)
  apply padded_append_cons_lt (by decide) hhour
  refine h.imp_right (.imp_right fun h => ?_)
  apply padded_append_cons_lt (by decide) hminute
  refine h.imp_right (.imp_right fun h => ?_)
  exact padded_append_lt (by decide) hsecond h _ _

/-- Of two times with the same offset, in years of four digits, the earlier gives the smaller name
by its bytes, and only times within one second give the same name. -/
theorem nameAt_chronological (hoffset : now.offset = now'.offset) (hnano : now.nanoseconds < 1000000000)
    (hnano' : now'.nanoseconds < 1000000000)
    (hyear : 0 ≤ (LocalTime.of now).year ∧ (LocalTime.of now).year ≤ 9999)
    (hyear' : 0 ≤ (LocalTime.of now').year ∧ (LocalTime.of now').year ≤ 9999) :
    (Utf8.encode (nameAt now) < Utf8.encode (nameAt now') ↔ now.seconds < now'.seconds) ∧
      (nameAt now = nameAt now' ↔ now.seconds = now'.seconds) := by
  have hsame : nameAt now = nameAt now' ↔ now.seconds = now'.seconds :=
    nameAt_eq_iff.trans (LocalTime.of_eq_iff hoffset hnano hnano')
  have hbefore (h : now.seconds < now'.seconds) : nameAt now < nameAt now' :=
    nameAt_lt hnano' hyear hyear' (LocalTime.units_lt hoffset hnano h)
  have hafter (h : now'.seconds < now.seconds) : nameAt now' < nameAt now :=
    nameAt_lt hnano hyear' hyear (LocalTime.units_lt hoffset.symm hnano' h)
  refine ⟨Utf8.encode_lt_encode_iff.trans ⟨fun h => ?_, hbefore⟩, hsame⟩
  rcases lt_trichotomy now.seconds now'.seconds with hlt | heq | hgt
  · exact hlt
  · exact absurd (hsame.2 heq ▸ h) Std.lt_irrefl
  · exact absurd (Std.lt_trans h (hafter hgt)) Std.lt_irrefl

/-- The last second of a leap day and the first of the next month, an hour ahead of universal
time. -/
theorem nameAt_chronological_leapDay :
    LocalTime.of ⟨951865199, 999999999, 3600⟩ = ⟨2000, 2, 29, 23, 59, 59⟩ ∧
      LocalTime.of ⟨951865200, 0, 3600⟩ = ⟨2000, 3, 1, 0, 0, 0⟩ ∧
      Utf8.encode (nameAt ⟨951865199, 999999999, 3600⟩) < Utf8.encode (nameAt ⟨951865200, 0, 3600⟩) ∧
      nameAt ⟨951865199, 999999999, 3600⟩ ≠ nameAt ⟨951865200, 0, 3600⟩ := by
  have hfebruary : LocalTime.of ⟨951865199, 999999999, 3600⟩ = ⟨2000, 2, 29, 23, 59, 59⟩ := by decide
  have hmarch : LocalTime.of ⟨951865200, 0, 3600⟩ = ⟨2000, 3, 1, 0, 0, 0⟩ := by decide
  obtain ⟨hbefore, hsame⟩ := @nameAt_chronological ⟨951865199, 999999999, 3600⟩
    ⟨951865200, 0, 3600⟩ rfl (by decide)
    (by decide) (by rw [hfebruary]; decide) (by rw [hmarch]; decide)
  exact ⟨hfebruary, hmarch, hbefore.2 (by decide), mt hsame.1 (by decide)⟩

end ServerPack.Archive
