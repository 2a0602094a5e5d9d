import ServerPack.Text.Utf8

/-!
A text is read back from its UTF-8 form (`Utf8.decode?_encode`). A sequence that has begun takes its
continuation bytes one after the other (`piecesFrom_more`, `piecesFrom_last`), and the ranges that
`lead` sets for the first of them are those in which the continuations of scalar values lie. Nothing
else is read as a text: what bytes are read as has them for its UTF-8 form
(`Utf8.encode_of_decode?`). Texts are in the order of their bytes (`Utf8.encode_lt_encode_iff`).
-/

namespace ServerPack.Utf8

theorem toNat_ofNat {n : Nat} (h : n < 256) : (UInt8.ofNat n).toNat = n := UInt8.toNat_ofNat_of_lt' h

/-- The last continuation byte completes a scalar value. -/
theorem piecesFrom_last {low high : UInt8} {bits digit : Nat} (hdigit : digit < 64)
    (hlow : low.toNat ≤ digit + 0x80) (hhigh : digit + 0x80 ≤ high.toNat) (rest : Bytes) :
    piecesFrom (some ⟨1, low, high, bits⟩) (UInt8.ofNat (digit + 0x80) :: rest) =
      some (Char.ofNat (bits * 64 + digit)) :: piecesFrom none rest := by
  have hbyte : (UInt8.ofNat (digit + 0x80)).toNat = digit + 0x80 := toNat_ofNat (by omega)
  have hwithin : low ≤ UInt8.ofNat (digit + 0x80) ∧ UInt8.ofNat (digit + 0x80) ≤ high := by
    rw [UInt8.le_iff_toNat_le, UInt8.le_iff_toNat_le, hbyte]
    exact ⟨hlow, hhigh⟩
  rw [piecesFrom, step, if_pos hwithin, hbyte, Nat.add_sub_cancel]
  rfl

/-- Any other continuation byte adds its bits. -/
theorem piecesFrom_more {missing : Nat} {low high : UInt8} {bits digit : Nat} (hdigit : digit < 64)
    (hlow : low.toNat ≤ digit + 0x80) (hhigh : digit + 0x80 ≤ high.toNat) (rest : Bytes) :
    piecesFrom (some ⟨missing + 2, low, high, bits⟩) (UInt8.ofNat (digit + 0x80) :: rest) =
      piecesFrom (some ⟨missing + 1, 0x80, 0xBF, bits * 64 + digit⟩) rest := by
  have hbyte : (UInt8.ofNat (digit + 0x80)).toNat = digit + 0x80 := toNat_ofNat (by omega)
  have hwithin : low ≤ UInt8.ofNat (digit + 0x80) ∧ UInt8.ofNat (digit + 0x80) ≤ high := by
    rw [UInt8.le_iff_toNat_le, UInt8.le_iff_toNat_le, hbyte]
    exact ⟨hlow, hhigh⟩
  rw [piecesFrom, step, if_pos hwithin, hbyte, Nat.add_sub_cancel]
  dsimp only
  rw [if_neg (by omega)]
  rfl

theorem piecesFrom_begins {b : UInt8} {pending : Pending} (h : lead b = .begins pending) (rest : Bytes) :
    piecesFrom none (b :: rest) = piecesFrom (some pending) rest := by
  rw [piecesFrom, step, begin, h]
  rfl

theorem lead_ofNat {n : Nat} (h : n < 256) :
    lead (UInt8.ofNat n) =
      if n < 0x80 then .whole (Char.ofNat n)
      else if n < 0xC2 then .malformed
      else if n < 0xE0 then .begins ⟨1, 0x80, 0xBF, n - 0xC0⟩
      else if n = 0xE0 then .begins ⟨2, 0xA0, 0xBF, 0⟩
      else if n = 0xED then .begins ⟨2, 0x80, 0x9F, 0xD⟩
      else if n < 0xF0 then .begins ⟨2, 0x80, 0xBF, n - 0xE0⟩
      else if n = 0xF0 then .begins ⟨3, 0x90, 0xBF, 0⟩
      else if n < 0xF4 then .begins ⟨3, 0x80, 0xBF, n - 0xF0⟩
      else if n = 0xF4 then .begins ⟨3, 0x80, 0x8F, 4⟩
      else .malformed := by
  simp only [lead, UInt8.lt_iff_toNat_lt, ← UInt8.toNat_inj, toNat_ofNat h]
  rfl

/-- The first byte of a sequence of three leaves room for the second. -/
theorem exists_lead_of_three (first second : Nat) (hfirst : first < 16) (hsecond : second < 64)
    (hlong : first = 0 → 0x20 ≤ second) (hsurrogate : first = 13 → second < 0x20) :
    ∃ low high : UInt8, lead (UInt8.ofNat (first + 0xE0)) = .begins ⟨2, low, high, first⟩ ∧
      low.toNat ≤ second + 0x80 ∧ second + 0x80 ≤ high.toNat := by
  rw [lead_ofNat (by omega), if_neg (by omega), if_neg (by omega), if_neg (by omega)]
  by_cases hzero : first = 0
  · subst hzero
    have := hlong rfl
    exact ⟨0xA0, 0xBF, rfl, by simpa using this, by simp; omega⟩
  by_cases hthirteen : first = 13
  · subst hthirteen
    have := hsurrogate rfl
    exact ⟨0x80, 0x9F, rfl, by simp, by simp; omega⟩
  rw [if_neg (by omega), if_neg (by omega), if_pos (by omega), Nat.add_sub_cancel]
  exact ⟨0x80, 0xBF, rfl, by simp, by simp; omega⟩

/-- The first byte of a sequence of four leaves room for the second. -/
theorem exists_lead_of_four (first second : Nat) (hfirst : first ≤ 4) (hsecond : second < 64)
    (hlong : first = 0 → 0x10 ≤ second) (hlarge : first = 4 → second < 0x10) :
    ∃ low high : UInt8, lead (UInt8.ofNat (first + 0xF0)) = .begins ⟨3, low, high, first⟩ ∧
      low.toNat ≤ second + 0x80 ∧ second + 0x80 ≤ high.toNat := by
  rw [lead_ofNat (by omega), if_neg (by omega), if_neg (by omega), if_neg (by omega), if_neg (by omega),
    if_neg (by omega), if_neg (by omega)]
  by_cases hzero : first = 0
  · subst hzero
    have := hlong rfl
    exact ⟨0x90, 0xBF, rfl, by simpa using this, by simp; omega⟩
  by_cases hfour : first = 4
  · subst hfour
    have := hlarge rfl
    exact ⟨0x80, 0x8F, rfl, by simp, by simp; omega⟩
  rw [if_neg (by omega), if_pos (by omega), Nat.add_sub_cancel]
  exact ⟨0x80, 0xBF, rfl, by simp, by simp; omega⟩

/-- The UTF-8 form of a scalar value is read as this value. -/
theorem piecesFrom_utf8EncodeChar (c : Char) (rest : Bytes) :
    piecesFrom none (String.utf8EncodeChar c ++ rest) = some c :: piecesFrom none rest := by
  have hc : Char.ofNat c.val.toNat = c := Char.ofNat_toNat c
  have hvalid : c.val.toNat < 0xD800 ∨ 0xDFFF < c.val.toNat ∧ c.val.toNat < 0x110000 := c.valid
  simp only [String.utf8EncodeChar]
  generalize c.val.toNat = v at hc hvalid ⊢
  subst hc
  by_cases hone : v ≤ 0x7F
  · rw [if_pos hone, List.singleton_append, piecesFrom, step, begin, lead_ofNat (by omega),
      if_pos (by omega)]
    rfl
  rw [if_neg hone]
  by_cases htwo : v ≤ 0x7FF
  · have hlead : lead (UInt8.ofNat (v / 64 % 0x20 + 0xC0)) = .begins ⟨1, 0x80, 0xBF, v / 64⟩ := by
      rw [lead_ofNat (by omega), if_neg (by omega), if_neg (by omega), if_pos (by omega),
        Nat.add_sub_cancel, Nat.mod_eq_of_lt (by omega)]
    rw [if_pos htwo, List.cons_append, piecesFrom_begins hlead, List.singleton_append,
      piecesFrom_last (by omega) (by simp) (by simp; omega)]
    congr 3
    omega
  rw [if_neg htwo]
  by_cases hthree : v ≤ 0xFFFF
  · obtain ⟨low, high, hlead, hlow, hhigh⟩ := exists_lead_of_three (v / 4096 % 0x10) (v / 64 % 0x40)
      (by omega) (by omega) (by omega) (by omega)
    rw [if_pos hthree, List.cons_append, piecesFrom_begins hlead, List.cons_append,
      piecesFrom_more (by omega) hlow hhigh, List.singleton_append, piecesFrom_last (by omega)
        (by simp) (by simp; omega)]
    congr 3
    omega
  rw [if_neg hthree]
  obtain ⟨low, high, hlead, hlow, hhigh⟩ := exists_lead_of_four (v / 262144 % 0x08) (v / 4096 % 0x40)
    (by omega) (by omega) (by omega) (by omega)
  rw [List.cons_append, piecesFrom_begins hlead, List.cons_append, piecesFrom_more (by omega) hlow hhigh,
    List.cons_append, piecesFrom_more (by omega) (by simp) (by simp; omega), List.singleton_append,
    piecesFrom_last (by omega) (by simp) (by simp; omega)]
  congr 3
  omega

theorem pieces_encode (text : Text) : pieces (encode text) = text.map some := by
  induction text with
  | nil => rfl
  | cons c text ih =>
      rw [pieces, encode, List.flatMap_cons, piecesFrom_utf8EncodeChar, List.map_cons]
      exact congrArg _ ih

/-- A text is read back from its UTF-8 form. -/
theorem decode?_encode (text : Text) : decode? (encode text) = some text := by
  rw [decode?, pieces_encode]
  induction text with
  | nil => rfl
  | cons c text ih =>
      rw [List.map_cons, List.mapM_cons, ih]
      rfl

/-! Back from bytes. -/

/-- The UTF-8 form of a scalar value by its number. -/
theorem utf8EncodeChar_ofNat {n : Nat} (h : n.isValidChar) :
    String.utf8EncodeChar (Char.ofNat n) =
      if n ≤ 0x7F then [UInt8.ofNat n]
      else if n ≤ 0x7FF then [UInt8.ofNat (n / 64 % 0x20 + 0xC0), UInt8.ofNat (n % 0x40 + 0x80)]
      else if n ≤ 0xFFFF then
        [UInt8.ofNat (n / 4096 % 0x10 + 0xE0), UInt8.ofNat (n / 64 % 0x40 + 0x80),
          UInt8.ofNat (n % 0x40 + 0x80)]
      else [UInt8.ofNat (n / 262144 % 0x08 + 0xF0), UInt8.ofNat (n / 4096 % 0x40 + 0x80),
        UInt8.ofNat (n / 64 % 0x40 + 0x80), UInt8.ofNat (n % 0x40 + 0x80)] := by
  have hn : (Char.ofNat n).val.toNat = n := by
    rw [Char.ofNat, dif_pos h]
    rfl
  simp only [String.utf8EncodeChar, hn]

/-- A sequence that has begun and is read without a malformed part goes on with a continuation byte
in its range. -/
theorem exists_digit_of_piecesFrom {pending : Pending} {bytes : Bytes} {text : Text}
    (hlow : 0x80 ≤ pending.low.toNat) (hhigh : pending.high.toNat < 0xC0)
    (h : piecesFrom (some pending) bytes = text.map some) :
    ∃ digit rest, bytes = UInt8.ofNat (digit + 0x80) :: rest ∧ digit < 64 ∧
    pending.low.toNat ≤ digit + 0x80 ∧
      digit + 0x80 ≤ pending.high.toNat := by
  have hnone : ∀ {rest}, none :: rest ≠ text.map some := fun h => by
    obtain ⟨c, -, hc⟩ := List.mem_map.1 (h ▸ List.mem_cons_self)
    cases hc
  cases bytes with
  | nil => exact absurd h hnone
  | cons b rest =>
      rw [piecesFrom, step] at h
      split at h
      · next hwithin =>
        rw [UInt8.le_iff_toNat_le, UInt8.le_iff_toNat_le] at hwithin
        refine ⟨b.toNat - 0x80, rest, ?_, by omega, by omega, by omega⟩
        rw [Nat.sub_add_cancel (by omega), UInt8.ofNat_toNat]
      · exact absurd h hnone

/-- The last continuation byte and what comes before it are taken off. -/
theorem of_piecesFrom_last {low high : UInt8} {bits : Nat} {bytes : Bytes} {text : Text}
    (hlow : 0x80 ≤ low.toNat) (hhigh : high.toNat < 0xC0)
    (h : piecesFrom (some ⟨1, low, high, bits⟩) bytes = text.map some) :
    ∃ digit rest text', bytes = UInt8.ofNat (digit + 0x80) :: rest ∧ digit < 64 ∧ low.toNat ≤ digit + 0x80 ∧
      digit + 0x80 ≤ high.toNat ∧ text = Char.ofNat (bits * 64 + digit) :: text' ∧
      pieces rest = text'.map some := by
  obtain ⟨digit, rest, rfl, hdigit, hfrom, hto⟩ := exists_digit_of_piecesFrom hlow hhigh h
  rw [piecesFrom_last hdigit hfrom hto] at h
  cases text with
  | nil => cases h
  | cons c text =>
      rw [List.map_cons, List.cons.injEq, Option.some.injEq] at h
      exact ⟨digit, rest, text, rfl, hdigit, hfrom, hto, by rw [h.1], h.2⟩

theorem of_piecesFrom_more {missing : Nat} {low high : UInt8} {bits : Nat} {bytes : Bytes} {text : Text}
    (hlow : 0x80 ≤ low.toNat) (hhigh : high.toNat < 0xC0)
    (h : piecesFrom (some ⟨missing + 2, low, high, bits⟩) bytes = text.map some) :
    ∃ digit rest, bytes = UInt8.ofNat (digit + 0x80) :: rest ∧ digit < 64 ∧ low.toNat ≤ digit + 0x80 ∧
      digit + 0x80 ≤ high.toNat ∧ piecesFrom (some ⟨missing + 1, 0x80, 0xBF, bits * 64 + digit⟩)
        rest = text.map some := by
  obtain ⟨digit, rest, rfl, hdigit, hfrom, hto⟩ := exists_digit_of_piecesFrom hlow hhigh h
  rw [piecesFrom_more hdigit hfrom hto] at h
  exact ⟨digit, rest, rfl, hdigit, hfrom, hto, h⟩

/-- The sequences that a first byte may begin. -/
theorem lead_cases (b : UInt8) :
    (b.toNat ≤ 0x7F ∧ lead b = .whole (Char.ofNat b.toNat)) ∨ lead b = .malformed ∨
    (∃ first, first < 32 ∧ 2 ≤ first ∧ b = UInt8.ofNat (first + 0xC0) ∧
      lead b = .begins ⟨1, 0x80, 0xBF, first⟩) ∨
    (∃ first low high, first < 16 ∧ b = UInt8.ofNat (first + 0xE0) ∧
      lead b = .begins ⟨2, low, high, first⟩ ∧
      0x80 ≤ low.toNat ∧ high.toNat < 0xC0 ∧ (first = 0 → 0xA0 ≤ low.toNat) ∧
      (first = 13 → high.toNat < 0xA0)) ∨
    ∃ first low high, first < 5 ∧ b = UInt8.ofNat (first + 0xF0) ∧ lead b = .begins ⟨3, low, high, first⟩ ∧
      0x80 ≤ low.toNat ∧ high.toNat < 0xC0 ∧ (first = 0 → 0x90 ≤ low.toNat) ∧
      (first = 4 → high.toNat < 0x90) := by
  have hb : b.toNat < 256 := b.toNat_lt
  obtain ⟨n, hn, rfl⟩ : ∃ n, n < 256 ∧ b = UInt8.ofNat n := ⟨b.toNat, hb, UInt8.ofNat_toNat.symm⟩
  rw [toNat_ofNat hn, lead_ofNat hn]
  by_cases hone : n < 0x80
  · rw [if_pos hone]
    exact .inl ⟨by omega, rfl⟩
  rw [if_neg hone]
  refine .inr ?_
  by_cases hstray : n < 0xC2
  · rw [if_pos hstray]
    exact .inl rfl
  rw [if_neg hstray]
  by_cases htwo : n < 0xE0
  · rw [if_pos htwo]
    exact .inr (.inl ⟨n - 0xC0, by omega, by omega, by rw [Nat.sub_add_cancel (by omega)], rfl⟩)
  rw [if_neg htwo]
  by_cases hthree : n < 0xF0
  · refine .inr (.inr (.inl ⟨n - 0xE0, ?_⟩))
    rw [Nat.sub_add_cancel (by omega)]
    by_cases hfirst : n = 0xE0
    · subst hfirst
      exact ⟨0xA0, 0xBF, by omega, rfl, rfl, by decide, by decide, by decide, by decide⟩
    by_cases hsurrogate : n = 0xED
    · subst hsurrogate
      exact ⟨0x80, 0x9F, by omega, rfl, rfl, by decide, by decide, by decide, by decide⟩
    rw [if_neg hfirst, if_neg hsurrogate, if_pos hthree]
    exact ⟨0x80, 0xBF, by omega, rfl, rfl, by decide, by decide, by omega, by omega⟩
  rw [if_neg (by omega), if_neg (by omega), if_neg hthree]
  by_cases hmalformed : 0xF4 < n
  · rw [if_neg (by omega), if_neg (by omega), if_neg (by omega)]
    exact .inl rfl
  refine .inr (.inr (.inr ⟨n - 0xF0, ?_⟩))
  rw [Nat.sub_add_cancel (by omega)]
  by_cases hfirst : n = 0xF0
  · subst hfirst
    exact ⟨0x90, 0xBF, by omega, rfl, rfl, by decide, by decide, by decide, by decide⟩
  by_cases hlast : n = 0xF4
  · subst hlast
    exact ⟨0x80, 0x8F, by omega, rfl, rfl, by decide, by decide, by decide, by decide⟩
  rw [if_neg hfirst, if_pos (by omega)]
  exact ⟨0x80, 0xBF, by omega, rfl, rfl, by decide, by decide, by omega, by omega⟩

/-- A byte string that is read without a malformed part is the UTF-8 form of what is read. -/
theorem encode_of_pieces {bytes : Bytes} {text : Text} (h : pieces bytes = text.map some) :
    encode text = bytes := by
  induction hlength : bytes.length using Nat.strongRecOn generalizing bytes text with
  | ind length ih =>
  subst hlength
  have hcons : ∀ (first : Bytes) {rest : Bytes} {c : Char} {text : Text}, bytes = first ++ rest →
    first ≠ [] →
      String.utf8EncodeChar c = first → pieces rest = text.map some →
          encode (c :: text) = first ++ rest := by
    rintro first rest c text rfl hne hc hrest
    have hshorter : rest.length < (first ++ rest).length := by
      rw [List.length_append]
      exact Nat.lt_add_of_pos_left (List.length_pos_iff.2 hne)
    rw [← ih _ hshorter hrest rfl, ← hc]
    exact List.flatMap_cons
  cases bytes with
  | nil =>
      cases text with
      | nil => rfl
      | cons c text => cases h
  | cons b rest =>
      rcases lead_cases b with ⟨hone, hlead⟩ | hlead | ⟨first, hfirst, hlong, rfl, hlead⟩ |
        ⟨first, low, high, hfirst, rfl, hlead, hlow, hhigh, hlong, hsurrogate⟩ |
        ⟨first, low, high, hfirst, rfl, hlead, hlow, hhigh, hlong, hlarge⟩
      · rw [pieces, piecesFrom, step, begin, hlead] at h
        cases text with
        | nil => cases h
        | cons c text =>
            obtain ⟨hc, hrest⟩ := List.cons.inj h
            obtain rfl := Option.some.inj hc
            refine hcons [b] (List.singleton_append ..).symm (List.cons_ne_nil _ _) ?_ hrest
            rw [utf8EncodeChar_ofNat (.inl (by omega)), if_pos hone, UInt8.ofNat_toNat]
      · rw [pieces, piecesFrom, step, begin, hlead] at h
        cases text <;> cases h
      · rw [pieces, piecesFrom_begins hlead] at h
        obtain ⟨digit, rest, text, rfl, hdigit, -, -, rfl, hrest⟩ :=
          of_piecesFrom_last (by decide) (by decide) h
        refine hcons [_, _] rfl (by simp) ?_ hrest
        rw [utf8EncodeChar_ofNat (.inl (by omega)), if_neg (by omega), if_pos (by omega)]
        congr 3 <;> omega
      · rw [pieces, piecesFrom_begins hlead] at h
        obtain ⟨second, rest, rfl, hsecond, hfrom, hto, h⟩ := of_piecesFrom_more hlow hhigh h
        obtain ⟨digit, rest, text, rfl, hdigit, -, -, rfl, hrest⟩ :=
          of_piecesFrom_last (by decide) (by decide) h
        refine hcons [_, _, _] rfl (by simp) ?_ hrest
        rw [utf8EncodeChar_ofNat (by rw [Nat.isValidChar]; omega), if_neg (by omega),
          if_neg (by omega), if_pos (by omega)]
        congr 4 <;> omega
      · rw [pieces, piecesFrom_begins hlead] at h
        obtain ⟨second, rest, rfl, hsecond, hfrom, hto, h⟩ := of_piecesFrom_more hlow hhigh h
        obtain ⟨third, rest, rfl, hthird, -, -, h⟩ := of_piecesFrom_more (by decide) (by decide) h
        obtain ⟨digit, rest, text, rfl, hdigit, -, -, rfl, hrest⟩ :=
          of_piecesFrom_last (by decide) (by decide) h
        refine hcons [_, _, _, _] rfl (by simp) ?_ hrest
        rw [utf8EncodeChar_ofNat (by rw [Nat.isValidChar]; omega), if_neg (by omega),
          if_neg (by omega), if_neg (by omega)]
        congr 5 <;> omega

/-- What a byte string is read as has this UTF-8 form. -/
theorem encode_of_decode? {bytes : Bytes} {text : Text} (h : decode? bytes = some text) :
    encode text = bytes := by
  refine encode_of_pieces ?_
  rw [decode?] at h
  generalize pieces bytes = found at h
  induction found generalizing text with
  | nil =>
      cases h
      rfl
  | cons piece found ih =>
      rw [List.mapM_cons] at h
      cases piece with
      | none => cases h
      | some c =>
          rcases hrest : found.mapM id with _ | rest
          · rw [hrest] at h
            cases h
          · rw [hrest] at h
            cases h
            rw [ih hrest]
            rfl

/-! The order of texts. -/

theorem ofNat_lt_ofNat_iff {m n : Nat} (hm : m < 256) (hn : n < 256) :
    UInt8.ofNat m < UInt8.ofNat n ↔ m < n := by
  rw [UInt8.lt_iff_toNat_lt, toNat_ofNat hm, toNat_ofNat hn]

theorem ofNat_eq_ofNat_iff {m n : Nat} (hm : m < 256) (hn : n < 256) :
    UInt8.ofNat m = UInt8.ofNat n ↔ m = n := by
  rw [← UInt8.toNat_inj, toNat_ofNat hm, toNat_ofNat hn]

/-- The bytes of two characters differ as the characters do before one of them ends. -/
theorem utf8EncodeChar_append_lt {c d : Char} (h : c < d) (s t : Bytes) :
    String.utf8EncodeChar c ++ s < String.utf8EncodeChar d ++ t := by
  have hlt : c.toNat < d.toNat := h
  have hc : c.toNat.isValidChar := c.valid
  have hd : d.toNat.isValidChar := d.valid
  have hbound : d.toNat < 0x110000 := hd.elim (fun h => by omega) fun h => h.2
  rw [← Char.ofNat_toNat c, ← Char.ofNat_toNat d, utf8EncodeChar_ofNat hc, utf8EncodeChar_ofNat hd]
  generalize c.toNat = m at *
  generalize d.toNat = n at *
  have hdigits : ∀ k : Nat, k / 64 / 64 = k / 4096 ∧ k / 4096 / 64 = k / 262144 := fun k =>
    ⟨Nat.div_div_eq_div_mul .., Nat.div_div_eq_div_mul ..⟩
  have hm := hdigits m
  have hn := hdigits n
  have htop : m / 262144 % 8 = m / 262144 ∧ n / 262144 % 8 = n / 262144 := ⟨by omega, by omega⟩
  repeat' split
  all_goals
    simp only [List.cons_append, List.nil_append, List.cons_lt_cons_iff]
    simp (disch := omega) only [ofNat_lt_ofNat_iff, ofNat_eq_ofNat_iff]
    omega

theorem encode_lt_encode {text text' : Text} (h : text < text') : encode text < encode text' := by
  induction h with
  | @nil c rest =>
      change [] < String.utf8EncodeChar c ++ encode rest
      cases hbytes : String.utf8EncodeChar c ++ encode rest with
      | nil => simp at hbytes
      | cons _ _ => exact List.nil_lt_cons _ _
  | rel h => exact utf8EncodeChar_append_lt h _ _
  | cons _ ih => exact List.append_left_lt ih

theorem encode_inj {text text' : Text} (h : encode text = encode text') : text = text' :=
  Option.some.inj ((decode?_encode text).symm.trans (h ▸ decode?_encode text'))

/-- The order of texts is that of their bytes. -/
theorem encode_lt_encode_iff {text text' : Text} : encode text < encode text' ↔ text < text' := by
  refine ⟨fun h => ?_, encode_lt_encode⟩
  rcases Std.lt_trichotomy text text' with hlt | rfl | hgt
  · exact hlt
  · exact absurd h (Std.lt_irrefl)
  · exact absurd (Std.lt_trans h (encode_lt_encode hgt)) Std.lt_irrefl

end ServerPack.Utf8
