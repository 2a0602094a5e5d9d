import ServerPack.Json.Reader

/-!
The tokens of a text without their places. `Scanner.advance` is the scanner without the numbers of
unread bytes, and `Scanner.feed` runs it over a text, so that two texts in a row are scanned one
after the other (`feed_append`). Its tokens are those of the text, where one that is broken counts
as stray (`map_bare_lexemes`). Inside a string nothing depends on what the string began with: what a
text means there is `decoded?`. A dollar sign stands only in strings (`advance_outside`), and there
it stands for itself like every character that is in no escape (`eq_string_of_feed_plain`).
-/

namespace ServerPack.Json

/-- The token without what is wrong with it: one that broke is as good as one that began nothing. -/
def Token.bare (token : Token) : Token :=
  match token with
  | .brokenString _ | .brokenScalar _ => .stray
  | token => token

/-- The token of a lexeme wherever it stands. -/
def Lexeme.bare (lexeme : Lexeme) : Token := lexeme.token.bare

/-- The token is a string. -/
def Token.isString : Token → Bool
  | .string _ => true
  | .arrayOpen | .arrayClose | .objectOpen | .objectClose | .comma | .colon | .null | .bool _ | .number _
  | .brokenString _ | .brokenScalar _ | .stray => false

namespace Scanner

/-- The state without the place where its lexeme began. -/
def bare : Scanner → Scanner
  | .between => .between
  | .literal _ token rest => .literal 0 token rest
  | .number _ stage spelling => .number 0 stage spelling
  | .string _ chars => .string 0 chars
  | .escape _ chars => .escape 0 chars
  | .unicode _ chars high missing value => .unicode 0 chars high missing value
  | .pairBackslash _ chars high => .pairBackslash 0 chars high
  | .pairMark _ chars high => .pairMark 0 chars high
  | .stopped => .stopped

/-- Lexemes and a state without their places. -/
def placeless (result : List Lexeme × Scanner) : List Token × Scanner :=
    (result.1.map Lexeme.bare, result.2.bare)

/-- One more character, wherever it stands. -/
def advance (scanner : Scanner) (c : Char) : List Token × Scanner := placeless (scanner.step 0 c)

theorem placeless_start (left : Nat) (c : Char) : placeless (start left c) = placeless (start 0 c) := by
  unfold start
  split
  · rfl
  · split <;> try rfl
    split <;> rfl

theorem placeless_closeUnicode (before before' : Nat) (chars : Text) (high value : Option Nat)
    (left left' : Nat) :
    placeless (closeUnicode before chars high value left) =
      placeless (closeUnicode before' chars high value left') := by
  unfold closeUnicode
  split
  · rfl
  · split <;> try rfl
    split <;> rfl
  · split <;> rfl

/-- Where a character stands makes no difference to what comes of it. -/
theorem placeless_step (left : Nat) (c : Char) (scanner : Scanner) :
    placeless (scanner.step left c) = scanner.bare.advance c := by
  unfold advance
  cases scanner with
  | between => exact placeless_start left c
  | stopped => rfl
  | literal before token rest =>
      cases rest with
      | nil => rfl
      | cons expected more =>
          simp only [bare, step]
          split
          · rfl
          · split <;> rfl
  | number before stage spelling =>
      simp only [bare, step]
      split
      · rfl
      · split
        · rfl
        · have hstart := Prod.mk.inj (placeless_start left c)
          exact Prod.ext (congrArg (_ :: ·) hstart.1) hstart.2
  | string before chars =>
      simp only [bare, step]
      split
      · rfl
      · split
        · rfl
        · split <;> rfl
  | escape before chars =>
      simp only [bare, step]
      split
      · rfl
      · split <;> rfl
  | unicode before chars high missing value =>
      simp only [bare, step]
      split
      · exact placeless_closeUnicode ..
      · rfl
  | pairBackslash before chars high =>
      simp only [bare, step]
      split <;> rfl
  | pairMark before chars high =>
      simp only [bare, step]
      split <;> rfl

@[simp] theorem bare_bare (scanner : Scanner) : scanner.bare.bare = scanner.bare := by cases scanner <;> rfl

theorem bare_advance (scanner : Scanner) (c : Char) :
    (scanner.advance c).2.bare = (scanner.advance c).2 := bare_bare _

/-- The tokens that a text completes, and the state behind it. -/
def feed (scanner : Scanner) : Text → List Token × Scanner
  | [] => ([], scanner)
  | c :: rest =>
    ((scanner.advance c).1 ++ (feed (scanner.advance c).2 rest).1, (feed (scanner.advance c).2 rest).2)

/-- What the end of a text makes of the state behind it. -/
def closing (scanner : Scanner) : List Token := scanner.finish.map Lexeme.bare

theorem feed_append (scanner : Scanner) (text text' : Text) :
    scanner.feed (text ++ text') =
      ((scanner.feed text).1 ++ ((scanner.feed text).2.feed text').1,
        ((scanner.feed text).2.feed text').2) := by
  induction text generalizing scanner with
  | nil => rfl
  | cons c rest ih => simp only [List.cons_append, feed, ih, List.append_assoc]

/-- The tokens of a text up to its end. -/
def scan (scanner : Scanner) (text : Text) : List Token :=
    (scanner.feed text).1 ++ (scanner.feed text).2.closing

theorem closing_bare (scanner : Scanner) : scanner.bare.closing = scanner.closing := by
  cases scanner with
  | number before stage spelling =>
      unfold closing
      simp only [bare, finish]
      split <;> rfl
  | _ => rfl

theorem map_bare_run (scanner : Scanner) (left : Nat) (text : Text) :
    (scanner.run left text).map Lexeme.bare = scanner.bare.scan text := by
  induction text generalizing scanner left with
  | nil => exact (closing_bare scanner).symm
  | cons c rest ih =>
      have hfound : (scanner.step left c).1.map Lexeme.bare = (scanner.bare.advance c).1 :=
        congrArg Prod.fst (placeless_step left c scanner)
      have hstate : (scanner.step left c).2.bare = (scanner.bare.advance c).2 :=
        congrArg Prod.snd (placeless_step left c scanner)
      simp only [run, scan, feed, List.map_append, ih, hfound, hstate, List.append_assoc]

/-! Inside a string. -/

/-- The scanner is inside a string. -/
def inside : Scanner → Bool
  | .string _ _ | .escape _ _ | .unicode _ _ _ _ _ | .pairBackslash _ _ _ | .pairMark _ _ _ => true
  | .between | .literal _ _ _ | .number _ _ _ | .stopped => false

/-- The scanner is inside a string and in no escape. -/
def isString : Scanner → Bool
  | .string _ _ => true
  | .between | .literal _ _ _ | .number _ _ _ | .escape _ _ | .unicode _ _ _ _ _ | .pairBackslash _ _ _
  | .pairMark _ _ _ | .stopped => false

/-- The same place inside a string that began with more characters. -/
def behind (first : Text) : Scanner → Scanner
  | .string before chars => .string before (chars ++ first)
  | .escape before chars => .escape before (chars ++ first)
  | .unicode before chars high missing value => .unicode before (chars ++ first) high missing value
  | .pairBackslash before chars high => .pairBackslash before (chars ++ first) high
  | .pairMark before chars high => .pairMark before (chars ++ first) high
  | scanner => scanner

@[simp] theorem behind_nil (scanner : Scanner) : scanner.behind [] = scanner := by
  cases scanner <;> simp only [behind, List.append_nil]

theorem bare_behind (scanner : Scanner) (first : Text) :
    (scanner.behind first).bare = scanner.bare.behind first := by
  cases scanner <;> rfl

theorem inside_bare (scanner : Scanner) : scanner.bare.inside = scanner.inside := by cases scanner <;> rfl

/-- The scanner goes on in the string that it is inside of, without a token and wherever that
began. -/
structure GoesOn (scanner : Scanner) (c : Char) : Prop where
  tokens : (scanner.advance c).1 = []
  inside : (scanner.advance c).2.inside
  behind (first : Text) : (scanner.behind first).advance c = ([], (scanner.advance c).2.behind first)

theorem goesOn_of_step {scanner next : Scanner} {c : Char} (hnext : next.inside)
    (h : ∀ first, (scanner.behind first).step 0 c = ([], next.behind first)) : scanner.GoesOn c := by
  have hadvance : scanner.advance c = ([], next.bare) := by
    rw [advance, ← behind_nil scanner, h, behind_nil]
    rfl
  constructor
  · rw [hadvance]
  · rw [hadvance, inside_bare, hnext]
  · intro first
    rw [hadvance, advance, h, placeless, bare_behind]
    rfl

/-- The string breaks, wherever it began. -/
def Breaks (scanner : Scanner) (c : Char) : Prop := ∀ first, .stray ∈ ((scanner.behind first).advance c).1

theorem breaks_of_step {scanner : Scanner} {c : Char} {before left : Nat} {problem : Problem}
    (h : ∀ first, (scanner.behind first).step 0 c = breakString before problem left) :
    scanner.Breaks c := by
  intro first
  rw [advance, h]
  exact List.mem_cons_self

/-- The end of a `\u` escape breaks the string or goes on with it. -/
theorem closeUnicode_cases (before : Nat) (chars : Text) (high value : Option Nat) (left : Nat) :
    (∃ problem, ∀ chars, closeUnicode before chars high value left = breakString before problem left) ∨
      ∃ next : Scanner, next.inside ∧
        ∀ first, closeUnicode before (chars ++ first) high value left = ([], next.behind first) := by
  cases value with
  | none => exact .inl ⟨_, fun _ => rfl⟩
  | some n =>
      cases high with
      | none =>
          by_cases hlow : 0xDC00 ≤ n ∧ n ≤ 0xDFFF
          · exact .inl ⟨_, fun _ => if_pos hlow⟩
          · by_cases hhigh : 0xD800 ≤ n ∧ n ≤ 0xDBFF
            · exact .inr ⟨.pairBackslash before chars n, rfl, fun first =>
                (if_neg hlow).trans (if_pos hhigh)⟩
            · exact .inr ⟨.string before (Char.ofNat n :: chars), rfl, fun first =>
                (if_neg hlow).trans (if_neg hhigh)⟩
      | some high =>
          by_cases hlow : 0xDC00 ≤ n ∧ n ≤ 0xDFFF
          · exact .inr ⟨.string before (Char.ofNat
              (0x10000 + (high - 0xD800) * 0x400 + (n - 0xDC00)) :: chars), rfl,
              fun first => if_pos hlow⟩
          · exact .inl ⟨_, fun _ => if_neg hlow⟩

/-- What the digits of a `\u` escape come to with one more character. -/
def unicodeValue (value : Option Nat) (c : Char) : Option Nat :=
  value.bind fun n => (hexDigit c).map fun digit => n * 16 + digit

theorem step_unicode (before : Nat) (chars : Text) (high : Option Nat) (missing : Nat)
    (value : Option Nat) (left : Nat) (c : Char) : (unicode before chars high missing value).step left c =
      if missing ≤ c.utf8Size then closeUnicode before chars high (unicodeValue value c) (left - missing)
      else ([], .unicode before chars high (missing - c.utf8Size) (unicodeValue value c)) := by
  unfold step unicodeValue
  cases value with
  | none => rfl
  | some n => cases hexDigit c <;> rfl

/-- A character ends the string, breaks it or goes on with it. -/
theorem advance_inside {scanner : Scanner} (h : scanner.inside) (c : Char) :
    (∃ before chars, scanner = .string before chars ∧ c = '"') ∨ scanner.Breaks c ∨ scanner.GoesOn c := by
  cases scanner with
  | between => cases h
  | literal => cases h
  | number => cases h
  | stopped => cases h
  | string before chars =>
      by_cases hquote : c = '"'
      · exact .inl ⟨before, chars, rfl, hquote⟩
      refine .inr ?_
      by_cases hback : c = '\\'
      · exact .inr (@goesOn_of_step _ (.escape before chars) _ rfl fun first => by simp [behind,
          step, hback])
      by_cases hcontrol : c.toNat < 0x20
      · exact .inl (breaks_of_step fun first => (if_neg hquote).trans <| (if_neg hback).trans
          (if_pos hcontrol))
      · exact .inr (@goesOn_of_step _ (.string before (c :: chars)) _ rfl fun first => by
          simp [behind, step, hquote, hback, hcontrol])
  | escape before chars =>
      refine .inr ?_
      by_cases hu : c = 'u'
      · exact .inr (@goesOn_of_step _ (.unicode before chars none 4 (some 0)) _ rfl fun first => by
          simp [behind, step, hu])
      cases hshort : shortEscape c with
      | none => exact .inl (@breaks_of_step _ c before (0 - 1) .invalidEscape fun first => by
          simp only [behind, step, if_neg hu, hshort])
      | some meant =>
          exact .inr (@goesOn_of_step _ (.string before (meant :: chars)) _ rfl fun first => by
            simp [behind, step, hu, hshort])
  | unicode before chars high missing value =>
      refine .inr ?_
      by_cases hmissing : missing ≤ c.utf8Size
      · have hstep : ∀ chars, (unicode before chars high missing value).step 0 c =
            closeUnicode before chars high (unicodeValue value c) (0 - missing) := fun chars =>
          (step_unicode ..).trans (if_pos hmissing)
        rcases closeUnicode_cases before chars high (unicodeValue value c) (0 - missing) with
          ⟨problem, hbreak⟩ | ⟨next, hnext, hclose⟩
        · exact .inl (breaks_of_step fun first => (hstep (chars ++ first)).trans (hbreak _))
        · exact .inr (goesOn_of_step hnext fun first => (hstep (chars ++ first)).trans (hclose first))
      · exact .inr (@goesOn_of_step _ (.unicode before chars high (missing - c.utf8Size)
          (unicodeValue value c)) _ rfl fun first => (step_unicode ..).trans (if_neg hmissing))
  | pairBackslash before chars high =>
      refine .inr ?_
      by_cases hback : c = '\\'
      · exact .inr (@goesOn_of_step _ (.pairMark before chars high) _ rfl
          fun first => by simp [behind, step, hback])
      · exact .inl (breaks_of_step fun first => if_neg hback)
  | pairMark before chars high =>
      refine .inr ?_
      by_cases hu : c = 'u'
      · exact .inr (@goesOn_of_step _ (.unicode before chars (some high) 4 (some 0)) _ rfl fun first => by
          simp [behind, step, hu])
      · exact .inl (breaks_of_step fun first => if_neg hu)

/-- Inside a string it makes no difference to a text without a token where the string began. -/
theorem feed_behind {scanner : Scanner} (hinside : scanner.inside) {text first : Text}
    (h : (scanner.feed text).1 = [] ∨ ((scanner.behind first).feed text).1 = []) :
    (scanner.feed text).1 = [] ∧ (scanner.behind first).feed text =
      ([], (scanner.feed text).2.behind first) := by
  induction text generalizing scanner with
  | nil => exact ⟨rfl, rfl⟩
  | cons c rest ih =>
      have hc : (scanner.advance c).1 = [] ∨ ((scanner.behind first).advance c).1 = [] :=
        h.imp (fun h => (List.append_eq_nil_iff.1 h).1) fun h => (List.append_eq_nil_iff.1 h).1
      rcases advance_inside hinside c with ⟨before, chars, rfl, rfl⟩ | hbreaks | hon
      · rcases hc with hc | hc <;> cases hc
      · have hempty := hbreaks []
        rw [behind_nil] at hempty
        rcases hc with hc | hc
        · exact absurd hempty (by simp [hc])
        · exact absurd (hbreaks first) (by simp [hc])
      · simp only [feed, hon.tokens, hon.behind, List.nil_append] at h ⊢
        obtain ⟨htokens, hrest⟩ := ih hon.inside h
        exact ⟨htokens, by rw [hrest]⟩

/-- A text that goes on in the string begins with a character that does. -/
theorem goesOn_of_feed {scanner : Scanner} (hinside : scanner.inside) {c : Char} {rest : Text}
    {state : Scanner} (h : scanner.feed (c :: rest) = ([], state)) :
    scanner.GoesOn c ∧ (scanner.advance c).2.feed rest = ([], state) := by
  obtain ⟨htokens, hstate⟩ := Prod.mk.inj h
  obtain ⟨hc, hrest⟩ := List.append_eq_nil_iff.1 htokens
  refine ⟨?_, Prod.ext hrest hstate⟩
  rcases advance_inside hinside c with ⟨before, chars, rfl, rfl⟩ | hbreaks | hon
  · cases hc
  · have hstray := hbreaks []
    rw [behind_nil, hc] at hstray
    cases hstray
  · exact hon

/-- A text without a token does not lead out of a string. -/
theorem inside_of_feed {scanner : Scanner} (hinside : scanner.inside) {text : Text}
    (h : (scanner.feed text).1 = []) :
    (scanner.feed text).2.inside := by
  induction text generalizing scanner with
  | nil => exact hinside
  | cons c rest ih =>
      obtain ⟨hon, hrest⟩ := goesOn_of_feed hinside (Prod.ext h rfl)
      exact ih hon.inside (congrArg Prod.fst hrest)

theorem bare_feed {scanner : Scanner} (h : scanner.bare = scanner) (text : Text) :
    (scanner.feed text).2.bare = (scanner.feed text).2 := by
  induction text generalizing scanner with
  | nil => exact h
  | cons c rest ih => exact ih (bare_advance _ c)

theorem closing_of_inside {scanner : Scanner} (h : scanner.inside) : scanner.closing = [.stray] := by
  cases scanner <;> first | rfl | cases h

/-- A text that begins inside a string and has no stray token goes on to the end of the string. -/
theorem exists_end_of_string {scanner : Scanner} (hbare : scanner.bare = scanner) (hinside : scanner.inside)
    {text : Text} (h : .stray ∉ scanner.scan text) :
    ∃ source rest chars, text = source ++ '"' :: rest ∧ scanner.feed source = ([], .string 0 chars) := by
  induction text generalizing scanner with
  | nil => exact absurd (by rw [scan, feed, closing_of_inside hinside]; exact List.mem_cons_self) h
  | cons c rest ih =>
      rcases advance_inside hinside c with ⟨before, chars, rfl, rfl⟩ | hbreaks | hon
      · cases hbare
        exact ⟨[], rest, chars, rfl, rfl⟩
      · have hstray := hbreaks []
        rw [behind_nil] at hstray
        exact absurd (List.mem_append_left _ (List.mem_append_left _ hstray)) h
      · simp only [scan, feed, hon.tokens, List.nil_append] at h
        obtain ⟨source, rest, chars, rfl, hsource⟩ := ih (bare_advance _ c) hon.inside h
        refine ⟨c :: source, rest, chars, rfl, ?_⟩
        change (scanner.advance c).2.feed source = _ at hsource
        rw [feed, hon.tokens, hsource]
        rfl

/-- What a text means that is written inside a string, if it can stand there without ending it. -/
def decoded? (source : Text) : Option Text :=
  match (string 0 []).feed source with
  | ([], .string _ chars) => some chars.reverse
  | _ => none

/-- A text that stands inside a string adds what it means to the characters of the string so far. -/
theorem decoded?_eq_some_iff {source value : Text} (chars : Text) :
    decoded? source = some value ↔ (string 0 chars).feed source =
      ([], .string 0 (value.reverse ++ chars)) := by
  have hinside : (string 0 []).inside := rfl
  have hbare : ((string 0 []).feed source).2.bare = ((string 0 []).feed source).2 := bare_feed rfl source
  have hiff : decoded? source = some value ↔ (string 0 []).feed source = ([], .string 0 value.reverse) := by
    rw [decoded?]
    split
    · next before chars hfeed =>
      rw [hfeed] at hbare ⊢
      cases hbare
      simp [List.reverse_eq_iff]
    · next hother =>
      exact ⟨fun h => (by cases h), fun hfeed => absurd hfeed (hother _ _)⟩
  rw [hiff]
  constructor
  · intro h
    have hbehind := (@feed_behind _ hinside source chars (.inl (congrArg Prod.fst h))).2
    rw [h] at hbehind
    exact hbehind
  · intro h
    obtain ⟨htokens, hbehind⟩ := @feed_behind _ hinside source chars (.inr (congrArg Prod.fst h))
    refine Prod.ext htokens ?_
    have hstate := congrArg Prod.snd (hbehind.symm.trans h)
    revert hstate
    generalize ((string 0 []).feed source).2 = state
    intro hstate
    cases state <;> simp [behind] at hstate ⊢
    exact hstate

theorem exists_decoded?_of_feed {source chars chars' : Text}
    (h : (string 0 chars).feed source = ([], .string 0 chars')) :
    ∃ value, decoded? source = some value := by
  have hinside : (string 0 []).inside := rfl
  obtain ⟨htokens, hbehind⟩ := @feed_behind _ hinside source chars (.inr (congrArg Prod.fst h))
  have hstate := congrArg Prod.snd (hbehind.symm.trans h)
  unfold decoded?
  generalize hfeed : (string 0 []).feed source = result at *
  obtain ⟨found, state⟩ := result
  obtain rfl : found = [] := htokens
  cases state <;> first | exact ⟨_, rfl⟩ | cases hstate

/-- A string as it is written is one token. -/
theorem feed_string {source value : Text} (h : decoded? source = some value) (rest : Text) :
    (string 0 []).feed (source ++ '"' :: rest) =
      (.string value :: (between.feed rest).1, (between.feed rest).2) := by
  have hend : (string 0 (value.reverse ++ [])).advance '"' = ([.string value], .between) := by
    simp [advance, step, placeless, Lexeme.bare, Token.bare, Scanner.bare]
  rw [feed_append, (decoded?_eq_some_iff []).1 h, feed, hend]
  rfl

/-! Outside of strings. -/

/-- The scanner is between lexemes or inside one that is no string. -/
def outside : Scanner → Bool
  | .between | .number _ _ _ => true
  | .literal _ token rest => !token.isString && !rest.isEmpty && rest.all Char.isAlpha
  | .string _ _ | .escape _ _ | .unicode _ _ _ _ _ | .pairBackslash _ _ _ | .pairMark _ _
    _ | .stopped => false

theorem outside_bare (scanner : Scanner) :
    scanner.bare.outside = scanner.outside := by cases scanner <;> rfl

theorem start_cases (left : Nat) (c : Char) :
    c = '"' ∧ start left c = ([], .string left []) ∨ start left c = ([⟨.stray, left, left⟩], .stopped) ∨
      c ≠ '"' ∧ c ≠ '$' ∧ (start left c).2.outside := by
  by_cases hblank : isBlank c
  · refine .inr (.inr ⟨?_, ?_, ?_⟩)
    · rintro rfl
      exact absurd hblank (by decide)
    · rintro rfl
      exact absurd hblank (by decide)
    · simp [start, hblank, outside]
  · unfold start
    simp only [if_neg hblank]
    split
    case h_7 => exact .inl ⟨rfl, rfl⟩
    case h_11 =>
      cases hfirst : Number.Stage.first c with
      | none => exact .inr (.inl rfl)
      | some stage =>
          refine .inr (.inr ⟨?_, ?_, rfl⟩)
          · rintro rfl
            cases hfirst
          · rintro rfl
            cases hfirst
    all_goals exact .inr (.inr ⟨by decide, by decide, rfl⟩)

/-- Outside of strings a character begins a string, is out of place or leaves the scanner
outside. -/
theorem advance_outside {scanner : Scanner} (h : scanner.outside) (c : Char) :
    c = '"' ∧ (scanner.advance c).2 = .string 0 [] ∨ .stray ∈ (scanner.advance c).1 ∨
      c ≠ '"' ∧ c ≠ '$' ∧ (scanner.advance c).2.outside := by
  have hstart : ∀ found : List Lexeme, scanner.step 0 c = (found ++ (start 0 c).1, (start 0 c).2) →
      c = '"' ∧ (scanner.advance c).2 = .string 0 [] ∨ .stray ∈ (scanner.advance c).1 ∨
        c ≠ '"' ∧ c ≠ '$' ∧ (scanner.advance c).2.outside := by
    intro found hstep
    rw [advance, hstep]
    rcases start_cases 0 c with ⟨rfl, hquote⟩ | hstray | ⟨hquote, hdollar, houtside⟩
    · exact .inl ⟨rfl, rfl⟩
    · rw [hstray]
      exact .inr (.inl (List.mem_map.2 ⟨_, List.mem_append_right _ List.mem_cons_self, rfl⟩))
    · exact .inr (.inr ⟨hquote, hdollar, (outside_bare _).trans houtside⟩)
  cases scanner with
  | between => exact hstart [] rfl
  | number before stage spelling =>
      cases hnext : stage.next c with
      | some stage' =>
          have hdigits : ∀ c : Char, stage.next c ≠ none → c ≠ '"' ∧ c ≠ '$' := by
            rintro c hc
            constructor <;> rintro rfl <;> exact hc (by cases stage <;> rfl)
          obtain ⟨hquote, hdollar⟩ := hdigits c (by simp [hnext])
          refine .inr (.inr ⟨hquote, hdollar, ?_⟩)
          simp [advance, step, hnext, placeless, bare, outside]
      | none =>
          by_cases hbroken : (!stage.complete || (stage = .zero && c.isDigit)) = true
          · refine .inr (.inl ?_)
            simp only [advance, step, hnext, if_pos hbroken]
            exact List.mem_cons_self
          · refine hstart [⟨.number (Number.keep spelling.reverse), before, 0⟩] ?_
            simp only [step, hnext, if_neg hbroken]
            rfl
  | literal before token rest =>
      cases rest with
      | nil => simp [outside] at h
      | cons expected more =>
          rw [outside, List.all_cons, Bool.and_eq_true, Bool.and_eq_true, Bool.and_eq_true] at h
          obtain ⟨⟨htoken, -⟩, hexpected, hmore⟩ := h
          by_cases hc : c = expected
          · subst hc
            have hne : ∀ c' : Char, c'.isAlpha = false → c ≠ c' := by
              rintro c' hc' rfl
              exact absurd hexpected (by simp [hc'])
            refine .inr (.inr ⟨hne _ (by decide), hne _ (by decide), ?_⟩)
            by_cases hlast : more.isEmpty
            · simp [advance, step, placeless, bare, outside, hlast]
            · simp only [Bool.not_eq_true'] at htoken
              simp [advance, step, placeless, bare, outside, htoken, hlast, hmore]
          · refine .inr (.inl ?_)
            simp only [advance, step, if_pos hc]
            exact List.mem_cons_self
  | string before chars => cases h
  | escape before chars => cases h
  | unicode before chars high missing value => cases h
  | pairBackslash before chars high => cases h
  | pairMark before chars high => cases h
  | stopped => cases h

theorem isString_of_mem_start {left : Nat} {c : Char} {lexeme : Lexeme} (h : lexeme ∈ (start left c).1) :
    lexeme.bare.isString = false := by
  unfold start at h
  split at h
  · cases h
  · split at h
    case h_11 =>
      split at h
      · cases h
      · rw [List.mem_singleton.1 h]
        rfl
    case h_7 | h_8 | h_9 | h_10 => cases h
    all_goals
      rw [List.mem_singleton.1 h]
      rfl

/-- Outside of strings no string ends. -/
theorem isString_of_mem_advance {scanner : Scanner} (h : scanner.outside) {c : Char} {token : Token}
    (htoken : token ∈ (scanner.advance c).1) : token.isString = false := by
  obtain ⟨lexeme, hlexeme, rfl⟩ := List.mem_map.1 htoken
  have hbare : ∀ token : Token, token.isString = false → token.bare.isString = false := by
    intro token hnot
    cases token <;> first | rfl | exact hnot
  have hstray : ∀ {before problem left}, lexeme ∈ (breakScalar before problem left).1 →
      lexeme.bare.isString = false := by
    intro before problem left hmem
    rw [List.mem_singleton.1 hmem]
    rfl
  cases scanner with
  | between => exact isString_of_mem_start hlexeme
  | number before stage spelling =>
      simp only [step] at hlexeme
      split at hlexeme
      · cases hlexeme
      · split at hlexeme
        · exact hstray hlexeme
        · rcases List.mem_cons.1 hlexeme with rfl | hlexeme
          · rfl
          · exact isString_of_mem_start hlexeme
  | literal before token rest =>
      rw [outside, Bool.and_eq_true, Bool.and_eq_true, Bool.not_eq_true'] at h
      cases rest with
      | nil => cases hlexeme
      | cons expected more =>
          simp only [step] at hlexeme
          split at hlexeme
          · exact hstray hlexeme
          · split at hlexeme
            · rw [List.mem_singleton.1 hlexeme]
              exact hbare token h.1.1
            · cases hlexeme
  | string before chars => cases h
  | escape before chars => cases h
  | unicode before chars high missing value => cases h
  | pairBackslash before chars high => cases h
  | pairMark before chars high => cases h
  | stopped => cases h

/-! Characters that stand for themselves. -/

theorem feed_unicode_none (before : Nat) (chars : Text) (high : Option Nat) (missing : Nat) {text : Text}
    (h : ((unicode before chars high missing none).feed text).1 = []) :
    ∃ before' missing', ((unicode before chars high missing none).feed text).2 =
      .unicode before' chars high missing' none := by
  induction text generalizing before missing with
  | nil => exact ⟨before, missing, rfl⟩
  | cons c rest ih =>
      by_cases hmissing : missing ≤ c.utf8Size
      · have hadvance : (unicode before chars high missing none).advance c = ([.stray], .stopped) := by
          rw [advance, step_unicode, if_pos hmissing]
          rfl
        rw [feed, hadvance] at h
        cases h
      · have hadvance : (unicode before chars high missing none).advance c =
            ([], .unicode 0 chars high (missing - c.utf8Size) none) := by
          rw [advance, step_unicode, if_neg hmissing]
          rfl
        rw [feed, hadvance] at h ⊢
        exact ih 0 (missing - c.utf8Size) h

/-- A character that has no part in any escape: no backslash, no digit and no mark behind a
backslash. -/
structure Plain (c : Char) : Prop where
  digit : hexDigit c = none
  short : shortEscape c = none
  mark : c ≠ 'u'

/-- Inside a string that goes on such a character stands for itself. -/
theorem eq_string_of_feed_plain {scanner : Scanner} (hinside : scanner.inside) {c : Char} (hc : Plain c)
    {rest chars : Text} (h : scanner.feed (c :: rest) = ([], .string 0 chars)) :
    ∃ before first, scanner = .string before first := by
  have hback : c ≠ '\\' := by
    rintro rfl
    cases hc.short
  obtain ⟨htokens, hstate⟩ := Prod.mk.inj h
  obtain ⟨hfirst, hrest⟩ := List.append_eq_nil_iff.1 htokens
  cases scanner with
  | string before first => exact ⟨before, first, rfl⟩
  | unicode before first high missing value =>
      have hvalue : unicodeValue value c = none := by cases value <;> simp [unicodeValue, hc.digit]
      rw [advance, step_unicode, hvalue] at hfirst hrest hstate
      split at hrest
      · rw [if_pos ‹_›] at hfirst
        cases hfirst
      · rw [if_neg ‹_›] at hstate
        obtain ⟨before', missing', hpoisoned⟩ := feed_unicode_none _ first high _ hrest
        cases hpoisoned.symm.trans hstate
  | escape before first =>
      rw [advance, step, if_neg hc.mark, hc.short] at hfirst
      cases hfirst
  | pairBackslash before first high =>
      rw [advance, step, if_neg hback] at hfirst
      cases hfirst
  | pairMark before first high =>
      rw [advance, step, if_neg hc.mark] at hfirst
      cases hfirst
  | between => cases hinside
  | literal => cases hinside
  | number => cases hinside
  | stopped => cases hinside

theorem eq_string_of_feed_dollar {scanner : Scanner} (hinside : scanner.inside) {rest chars : Text}
    (h : scanner.feed ('$' :: rest) = ([], .string 0 chars)) :
    ∃ before first, scanner = .string before first :=
  eq_string_of_feed_plain hinside ⟨by decide, by decide, by decide⟩ h

end Scanner

/-- The tokens of a text without their places. -/
def tokens (text : Text) : List Token := Scanner.between.scan text

theorem map_bare_lexemes (text : Text) : (lexemes text).map Lexeme.bare = tokens text :=
  Scanner.map_bare_run .between _ text

end ServerPack.Json
