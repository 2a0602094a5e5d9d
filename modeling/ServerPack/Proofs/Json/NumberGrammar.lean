import ServerPack.Proofs.Json.NumberSpelling

/-!
The grammar of numbers. A number is a sign if there is one, an integer part without leading zeros, a
fraction if there is one and an exponent if there is one (`Grammatical`). What each stage of the
machine goes on with is a part of the grammar, from the exponent backwards, and so the machine stops
where a number may end behind the texts of the grammar alone (`grammatical_iff`). But for `-0` each
of these texts is the spelling that is kept of the number (`wellSpelled_iff`).
-/

namespace ServerPack.Json.Number

/-! The grammar. -/

/-- A run of digits. -/
structure Digits (text : Text) : Prop where
  ne_nil : text ≠ []
  all : ∀ c ∈ text, c.isDigit

/-- An integer part: a zero, or digits that do not begin with one. -/
inductive Whole : Text → Prop
  | zero : Whole ['0']
  | digits {c rest} (hfirst : c ≠ '0') (hdigits : Digits (c :: rest)) : Whole (c :: rest)

/-- A fraction, if there is one: a point and digits. -/
inductive Fraction : Text → Prop
  | none : Fraction []
  | digits {text} (hdigits : Digits text) : Fraction ('.' :: text)

/-- An exponent, if there is one: its letter, a sign if there is one, and digits. -/
inductive Exponent : Text → Prop
  | none : Exponent []
  | digits {c sign text} (hletter : c = 'e' ∨ c = 'E') (hsign : sign = [] ∨ sign = ['+'] ∨ sign = ['-'])
      (hdigits : Digits text) : Exponent (c :: (sign ++ text))

/-- What follows an integer part. -/
inductive Ending : Text → Prop
  | mk {fraction exponent} (hfraction : Fraction fraction) (hexponent : Exponent exponent) :
    Ending (fraction ++ exponent)

/-- The grammar of numbers: a sign if there is one, an integer part, and what follows it. -/
inductive Grammatical : Text → Prop
  | mk {sign whole ending} (hsign : sign = [] ∨ sign = ['-']) (hwhole : Whole whole)
    (hending : Ending ending) :
      Grammatical (sign ++ (whole ++ ending))

theorem digits_cons_iff {c : Char} {rest : Text} : Digits (c :: rest) ↔ c.isDigit ∧ ∀ d ∈ rest, d.isDigit :=
  ⟨fun h => List.forall_mem_cons.1 h.all, fun h => ⟨List.cons_ne_nil _ _, List.forall_mem_cons.2 h⟩⟩

/-! The machine. -/

namespace Stage

/-- A number that has been read so far goes on with the text and may end behind it. -/
def Accepts (stage : Stage) (text : Text) : Prop := ∃ last, stage.after text = some last ∧ last.complete

theorem accepts_nil_iff {stage : Stage} : stage.Accepts [] ↔ stage.complete := by
  rw [Accepts, after]
  simp

theorem accepts_cons_iff {stage : Stage} {c : Char} {rest : Text} :
    stage.Accepts (c :: rest) ↔ ∃ next, stage.next c = some next ∧ next.Accepts rest := by
  rw [Accepts, after]
  cases stage.next c <;> simp [Accepts]

theorem not_accepts_nil {stage : Stage} (h : stage.complete = false) : ¬stage.Accepts [] := by
  simp [accepts_nil_iff, h]

/-- A stage that digits do not leave accepts digits and then what it accepts without them. -/
theorem accepts_digits_iff {stage : Stage} {Behind : Text → Prop}
    (hdigit : ∀ c, c.isDigit → stage.next c = some stage) (hcomplete : stage.complete)
    (hnil : Behind []) (hbehind : ∀ c rest, Behind (c :: rest) → c.isDigit = false)
    (hother : ∀ c rest, c.isDigit = false → (stage.Accepts (c :: rest) ↔ Behind (c :: rest)))
    {text : Text} :
    stage.Accepts text ↔ ∃ digits more, text = digits ++ more ∧ (∀ c ∈ digits, c.isDigit) ∧
    Behind more := by
  induction text with
  | nil => exact iff_of_true (accepts_nil_iff.2 hcomplete) ⟨[], [], rfl, nofun, hnil⟩
  | cons c rest ih =>
      by_cases hc : c.isDigit
      · have hgoes : stage.Accepts (c :: rest) ↔
          stage.Accepts rest := by simp [accepts_cons_iff, hdigit c hc]
        rw [hgoes, ih]
        constructor
        · rintro ⟨digits, more, rfl, hdigits, hmore⟩
          exact ⟨c :: digits, more, rfl, List.forall_mem_cons.2 ⟨hc, hdigits⟩, hmore⟩
        · rintro ⟨digits, more, htext, hdigits, hmore⟩
          cases digits with
          | nil =>
              obtain rfl : c :: rest = more := htext
              rw [hbehind c rest hmore] at hc
              cases hc
          | cons d digits =>
              obtain ⟨rfl, rfl⟩ := List.cons_eq_cons.1 htext
              exact ⟨digits, more, rfl, (List.forall_mem_cons.1 hdigits).2, hmore⟩
      · rw [hother c rest (Bool.eq_false_iff.2 hc)]
        refine ⟨fun h => ⟨[], c :: rest, rfl, nofun, h⟩, ?_⟩
        rintro ⟨digits, more, htext, hdigits, hmore⟩
        cases digits with
        | nil =>
            obtain rfl : c :: rest = more := htext
            exact hmore
        | cons d digits =>
            obtain ⟨rfl, rfl⟩ := List.cons_eq_cons.1 htext
            exact absurd (hdigits c List.mem_cons_self) hc

theorem accepts_exponentDigits_iff {text : Text} : exponentDigits.Accepts text ↔ ∀ c ∈ text, c.isDigit := by
  refine (@accepts_digits_iff _ (· = []) (fun c hc => by simp [next, hc]) rfl rfl nofun
    fun c rest hc => ?_).trans ?_
  · simp [accepts_cons_iff, next, hc]
  · simp

theorem accepts_exponentSign_iff {text : Text} : exponentSign.Accepts text ↔ Digits text := by
  cases text with
  | nil => exact iff_of_false (not_accepts_nil rfl) fun h => h.ne_nil rfl
  | cons c rest =>
      rw [accepts_cons_iff, digits_cons_iff]
      by_cases hc : c.isDigit <;> simp [next, hc, accepts_exponentDigits_iff]

theorem accepts_exponent_iff {text : Text} : exponent.Accepts text ↔
    ∃ sign digits, text = sign ++ digits ∧ (sign = [] ∨ sign = ['+'] ∨ sign = ['-']) ∧ Digits digits := by
  cases text with
  | nil =>
      refine iff_of_false (not_accepts_nil rfl) ?_
      rintro ⟨sign, digits, hnil, -, hdigits⟩
      exact hdigits.ne_nil (List.append_eq_nil_iff.1 hnil.symm).2
  | cons c rest =>
      have hnext : exponent.next c = if c = '+' ∨ c = '-' then some .exponentSign
        else if c.isDigit then some .exponentDigits else none := rfl
      rw [accepts_cons_iff, hnext]
      constructor
      · rintro ⟨next, hnext, hrest⟩
        split at hnext
        · next hsign =>
          cases hnext
          exact ⟨[c], rest, rfl, .inr (hsign.imp (congrArg ([·])) (congrArg ([·]))),
            accepts_exponentSign_iff.1 hrest⟩
        · split at hnext
          · next hdigit =>
            cases hnext
            exact ⟨[], c :: rest, rfl, .inl rfl,
              digits_cons_iff.2 ⟨hdigit, accepts_exponentDigits_iff.1 hrest⟩⟩
          · cases hnext
      · rintro ⟨sign, digits, htext, hsign, hdigits⟩
        rcases hsign with rfl | rfl | rfl
        · obtain rfl : c :: rest = digits := htext
          obtain ⟨hc, hrest⟩ := digits_cons_iff.1 hdigits
          have hsign : ¬(c = '+' ∨ c = '-') := by
            rintro (rfl | rfl) <;> exact absurd hc (by decide)
          exact ⟨.exponentDigits, by rw [if_neg hsign, if_pos hc], accepts_exponentDigits_iff.2 hrest⟩
        · obtain ⟨rfl, rfl⟩ := List.cons_eq_cons.1 htext
          exact ⟨.exponentSign, rfl, accepts_exponentSign_iff.2 hdigits⟩
        · obtain ⟨rfl, rfl⟩ := List.cons_eq_cons.1 htext
          exact ⟨.exponentSign, rfl, accepts_exponentSign_iff.2 hdigits⟩

theorem exponent_cons_iff {c : Char} {rest : Text} :
    Exponent (c :: rest) ↔ (c = 'e' ∨ c = 'E') ∧ exponent.Accepts rest := by
  rw [accepts_exponent_iff]
  constructor
  · intro h
    cases h with
    | digits hletter hsign hdigits => exact ⟨hletter, _, _, rfl, hsign, hdigits⟩
  · rintro ⟨hletter, sign, digits, rfl, hsign, hdigits⟩
    exact .digits hletter hsign hdigits

theorem accepts_fraction_iff {text : Text} : fraction.Accepts text ↔
    ∃ digits more, text = digits ++ more ∧ (∀ c ∈ digits, c.isDigit) ∧ Exponent more := by
  have hnext : ∀ c, fraction.next c = if c = 'e' ∨ c = 'E' then some .exponent
    else if c.isDigit then some .fraction else none := fun _ => rfl
  have hletter : ∀ c : Char, c = 'e' ∨ c = 'E' → c.isDigit = false := by
    rintro c (rfl | rfl) <;> rfl
  refine accepts_digits_iff (fun c hc => ?_) rfl .none (fun c rest h => hletter c (exponent_cons_iff.1 h).1)
    fun c rest hc => ?_
  · rw [hnext, if_neg fun h => absurd (hletter c h) (by simp [hc]), if_pos hc]
  · rw [accepts_cons_iff, exponent_cons_iff, hnext, hc]
    by_cases h : c = 'e' ∨ c = 'E' <;> simp [h]

theorem accepts_point_iff {text : Text} : point.Accepts text ↔
    ∃ digits more, text = digits ++ more ∧ Digits digits ∧ Exponent more := by
  cases text with
  | nil =>
      refine iff_of_false (not_accepts_nil rfl) ?_
      rintro ⟨digits, more, hnil, hdigits, -⟩
      exact hdigits.ne_nil (List.append_eq_nil_iff.1 hnil.symm).1
  | cons c rest =>
      have hnext : point.next c = if c.isDigit then some .fraction else none := rfl
      rw [accepts_cons_iff, hnext]
      constructor
      · rintro ⟨next, hnext, hrest⟩
        split at hnext
        · next hdigit =>
          cases hnext
          obtain ⟨digits, more, rfl, hdigits, hmore⟩ := accepts_fraction_iff.1 hrest
          exact ⟨c :: digits, more, rfl, digits_cons_iff.2 ⟨hdigit, hdigits⟩, hmore⟩
        · cases hnext
      · rintro ⟨digits, more, htext, hdigits, hmore⟩
        cases digits with
        | nil => exact absurd rfl hdigits.ne_nil
        | cons d digits =>
            obtain ⟨rfl, rfl⟩ := List.cons_eq_cons.1 htext
            obtain ⟨hdigit, hdigits⟩ := digits_cons_iff.1 hdigits
            exact ⟨.fraction, if_pos hdigit, accepts_fraction_iff.2 ⟨digits, more, rfl, hdigits, hmore⟩⟩

theorem ending_cons_iff {c : Char} {rest : Text} : Ending (c :: rest) ↔
    c = '.' ∧ point.Accepts rest ∨ (c = 'e' ∨ c = 'E') ∧ exponent.Accepts rest := by
  rw [← exponent_cons_iff, accepts_point_iff]
  constructor
  · generalize htext : c :: rest = text
    rintro ⟨hfraction, hexponent⟩
    cases hfraction with
    | none =>
        rw [List.nil_append] at htext
        exact .inr (htext ▸ hexponent)
    | digits hdigits =>
        obtain ⟨rfl, rfl⟩ := List.cons_eq_cons.1 htext
        exact .inl ⟨rfl, _, _, rfl, hdigits, hexponent⟩
  · rintro (⟨rfl, digits, more, rfl, hdigits, hmore⟩ | hexponent)
    · exact .mk (.digits hdigits) hmore
    · exact .mk .none hexponent

theorem accepts_zero_iff {text : Text} : zero.Accepts text ↔ Ending text := by
  cases text with
  | nil => exact iff_of_true (accepts_nil_iff.2 rfl) (.mk .none .none)
  | cons c rest =>
      have hnext : zero.next c = if c = '.' then some .point
        else if c = 'e' ∨ c = 'E' then some .exponent else none := rfl
      rw [accepts_cons_iff, ending_cons_iff, hnext]
      by_cases hpoint : c = '.'
      · simp [hpoint]
      · by_cases hletter : c = 'e' ∨ c = 'E' <;> simp [hpoint, hletter]

theorem accepts_integer_iff {text : Text} : integer.Accepts text ↔
    ∃ digits more, text = digits ++ more ∧ (∀ c ∈ digits, c.isDigit) ∧ Ending more := by
  have hnext : ∀ c, integer.next c = if c = '.' then some .point
    else if c = 'e' ∨ c = 'E' then some .exponent else if c.isDigit then some .integer else none :=
      fun _ => rfl
  have hmark : ∀ c : Char, c = '.' ∨ c = 'e' ∨ c = 'E' → c.isDigit = false := by
    rintro c (rfl | rfl | rfl) <;> rfl
  refine accepts_digits_iff (fun c hc => ?_) rfl (.mk .none .none) (fun c rest h => ?_) fun c rest hc => ?_
  · obtain ⟨hpoint, hletter⟩ := not_or.1 fun h => absurd (hmark c h) (by simp [hc])
    rw [hnext, if_neg hpoint, if_neg hletter, if_pos hc]
  · exact hmark c ((ending_cons_iff.1 h).imp And.left And.left)
  · rw [accepts_cons_iff, ending_cons_iff, hnext, hc]
    by_cases hpoint : c = '.'
    · simp [hpoint]
    · by_cases hletter : c = 'e' ∨ c = 'E' <;> simp [hpoint, hletter]

/-- What a number may be behind its sign. -/
theorem accepts_minus_iff {text : Text} : minus.Accepts text ↔
    ∃ whole ending, text = whole ++ ending ∧ Whole whole ∧ Ending ending := by
  cases text with
  | nil =>
      refine iff_of_false (not_accepts_nil rfl) ?_
      rintro ⟨whole, ending, hnil, hwhole, -⟩
      rw [(List.append_eq_nil_iff.1 hnil.symm).1] at hwhole
      cases hwhole
  | cons c rest =>
      have hnext : minus.next c = if c = '0' then some .zero else if c.isDigit then some .integer
        else none := rfl
      rw [accepts_cons_iff, hnext]
      constructor
      · rintro ⟨next, hnext, hrest⟩
        split at hnext
        · next hzero =>
          cases hnext
          exact ⟨['0'], rest, by rw [hzero]; rfl, .zero, accepts_zero_iff.1 hrest⟩
        · next hzero =>
          split at hnext
          · next hdigit =>
            cases hnext
            obtain ⟨digits, more, rfl, hdigits, hmore⟩ := accepts_integer_iff.1 hrest
            exact ⟨c :: digits, more, rfl, .digits hzero (digits_cons_iff.2 ⟨hdigit, hdigits⟩), hmore⟩
          · cases hnext
      · rintro ⟨whole, ending, htext, hwhole, hending⟩
        cases hwhole with
        | zero =>
            obtain ⟨rfl, rfl⟩ := List.cons_eq_cons.1 htext
            exact ⟨.zero, rfl, accepts_zero_iff.2 hending⟩
        | digits hfirst hdigits =>
            obtain ⟨rfl, rfl⟩ := List.cons_eq_cons.1 htext
            obtain ⟨hdigit, hdigits⟩ := digits_cons_iff.1 hdigits
            exact ⟨.integer, by rw [if_neg hfirst, if_pos hdigit], accepts_integer_iff.2 ⟨_, _, rfl,
              hdigits, hending⟩⟩

end Stage

/-- The machine stops where a number may end behind the texts of the grammar, and behind no
others. -/
theorem grammatical_iff {text : Text} : Grammatical text ↔ ∃ stage, stageOf? text = some stage ∧
    stage.complete := by
  have hsigned : ∀ {rest : Text}, ¬Stage.minus.Accepts ('-' :: rest) := by
    intro rest h
    obtain ⟨next, hnext, -⟩ := Stage.accepts_cons_iff.1 h
    cases hnext
  have hgrammar : Grammatical text ↔
      ∃ sign rest, text = sign ++ rest ∧ (sign = [] ∨ sign = ['-']) ∧ Stage.minus.Accepts rest := by
    simp only [Stage.accepts_minus_iff]
    constructor
    · rintro ⟨hsign, hwhole, hending⟩
      exact ⟨_, _, rfl, hsign, _, _, rfl, hwhole, hending⟩
    · rintro ⟨sign, _, rfl, hsign, whole, ending, rfl, hwhole, hending⟩
      exact .mk hsign hwhole hending
  rw [hgrammar]
  cases text with
  | nil =>
      refine iff_of_false ?_ (by simp [stageOf?])
      rintro ⟨sign, rest, hnil, -, haccepts⟩
      rw [(List.append_eq_nil_iff.1 hnil.symm).2] at haccepts
      exact Stage.not_accepts_nil rfl haccepts
  | cons c rest =>
      have hstages : (∃ stage, stageOf? (c :: rest) = some stage ∧ stage.complete) ↔
          ∃ begun, Stage.first c = some begun ∧ begun.Accepts rest := by
        rw [stageOf?]
        cases Stage.first c <;> simp [Stage.Accepts]
      rw [hstages]
      by_cases hminus : c = '-'
      · subst hminus
        constructor
        · rintro ⟨sign, more, htext, rfl | rfl, haccepts⟩
          · obtain rfl : '-' :: rest = more := htext
            exact absurd haccepts hsigned
          · exact ⟨.minus, rfl, (List.cons_eq_cons.1 htext).2 ▸ haccepts⟩
        · rintro ⟨begun, hbegun, haccepts⟩
          cases hbegun
          exact ⟨['-'], rest, rfl, .inr rfl, haccepts⟩
      · have hfirst : Stage.first c = Stage.minus.next c := if_neg hminus
        rw [hfirst, ← Stage.accepts_cons_iff]
        constructor
        · rintro ⟨sign, more, htext, rfl | rfl, haccepts⟩
          · obtain rfl : c :: rest = more := htext
            exact haccepts
          · exact absurd (List.cons_eq_cons.1 htext).1 hminus
        · exact fun haccepts => ⟨[], c :: rest, rfl, .inl rfl, haccepts⟩

/-- The spellings that are kept are those of the grammar but for the zero with a sign. -/
theorem wellSpelled_iff {spelling : Text} : WellSpelled spelling ↔ Grammatical spelling ∧
    spelling ≠ ['-', '0'] := by
  rw [grammatical_iff]
  constructor
  · rintro ⟨hcomplete, hkept⟩
    refine ⟨hcomplete, ?_⟩
    rintro rfl
    cases hkept
  · rintro ⟨hcomplete, hne⟩
    exact ⟨hcomplete, if_neg hne⟩

end ServerPack.Json.Number
