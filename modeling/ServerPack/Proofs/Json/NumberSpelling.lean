import ServerPack.Proofs.Json.ReaderSteps

/-!
The spelling of numbers. Every number in a value that has been read is spelled as it is kept
(`spelled_of_read`), and where such a spelling stands in a text it is that number (`scan_spelling`).
It consists of digits, signs, points and letters of exponents, and a text of such characters stands
for itself inside a string (`decoded?_of_literal`).
-/

namespace ServerPack.Json

/-- The character stands for itself inside a string. -/
def Literal (c : Char) : Prop := c ≠ '"' ∧ c ≠ '\\' ∧ ¬c.toNat < 0x20

instance : DecidablePred Literal := fun _ => inferInstanceAs (Decidable (_ ∧ _ ∧ _))

theorem literal_of_isAlphanum {c : Char} (h : c.isAlphanum) : Literal c := by
  have hcontrols : ∀ n < 0x20, (Char.ofNat n).isAlphanum = false := by decide
  refine ⟨?_, ?_, fun hcontrol => ?_⟩
  · rintro rfl
    exact absurd h (by decide)
  · rintro rfl
    exact absurd h (by decide)
  · have hc := hcontrols c.toNat hcontrol
    rw [Char.ofNat_toNat, h] at hc
    cases hc

theorem literal_of_isDigit {c : Char} (h : c.isDigit) : Literal c :=
  literal_of_isAlphanum (by rw [Char.isAlphanum, h, Bool.or_true])

theorem Scanner.decoded?_of_literal {text : Text} (h : ∀ c ∈ text, Literal c) :
    decoded? text = some text := by
  rw [decoded?_eq_some_iff []]
  suffices ∀ chars, (string 0 chars).feed text = ([], .string 0 (text.reverse ++ chars)) from this []
  induction text with
  | nil => exact fun chars => rfl
  | cons c rest ih =>
      obtain ⟨⟨hquote, hback, hcontrol⟩, hrest⟩ := List.forall_mem_cons.1 h
      intro chars
      have hadvance : (string 0 chars).advance c = ([], .string 0 (c :: chars)) := by
        simp only [advance, step, if_neg hquote, if_neg hback, if_neg hcontrol]
        rfl
      rw [feed, hadvance, ih hrest, List.reverse_cons, List.append_assoc]
      rfl

theorem Scanner.isSome_decoded?_of_literal {text : Text} (h : ∀ c ∈ text, Literal c) :
    (decoded? text).isSome := by
  rw [decoded?_of_literal h]
  rfl

/-- What a text in a string stands for goes on with what the text behind it stands for. -/
theorem Scanner.decoded?_append {source value : Text} (h : decoded? source = some value) (more : Text) :
    decoded? (source ++ more) = (decoded? more).map (value ++ ·) := by
  have hfeed : (string 0 []).feed (source ++ more) = (string 0 (value.reverse ++ [])).feed more := by
    rw [feed_append, (decoded?_eq_some_iff []).1 h]
    rfl
  cases hmore : decoded? more with
  | some rest =>
      rw [Option.map_some, decoded?_eq_some_iff [], hfeed, (decoded?_eq_some_iff _).1 hmore,
        List.reverse_append, List.append_assoc]
  | none =>
      refine Option.eq_none_iff_forall_ne_some.2 fun whole hwhole => ?_
      rw [decoded?_eq_some_iff [], hfeed] at hwhole
      obtain ⟨rest, hrest⟩ := exists_decoded?_of_feed hwhole
      cases hmore.symm.trans hrest

/-- Behind a text that can stand in a string another can stand there if both can together. -/
theorem Scanner.isSome_decoded?_append_iff {source : Text} (h : (decoded? source).isSome) (more : Text) :
    (decoded? (source ++ more)).isSome ↔ (decoded? more).isSome := by
  obtain ⟨value, hvalue⟩ := Option.isSome_iff_exists.1 h
  rw [decoded?_append hvalue, Option.isSome_map]

/-- A dollar sign stands in no escape. -/
theorem Scanner.isSome_decoded?_of_dollar {source rest : Text}
    (h : (decoded? (source ++ '$' :: rest)).isSome) :
    (decoded? source).isSome := by
  obtain ⟨value, hvalue⟩ := Option.isSome_iff_exists.1 h
  have hfeed := (decoded?_eq_some_iff []).1 hvalue
  rw [feed_append] at hfeed
  obtain ⟨htokens, hstate⟩ := Prod.mk.inj hfeed
  obtain ⟨hsource, hrest⟩ := List.append_eq_nil_iff.1 htokens
  have hbare : ((string 0 []).feed source).2.bare = ((string 0 []).feed source).2 := bare_feed rfl source
  have hinside : ((string 0 []).feed source).2.inside := inside_of_feed rfl hsource
  obtain ⟨before, first, hstring⟩ := eq_string_of_feed_dollar hinside (Prod.ext hrest hstate)
  rw [hstring] at hbare
  cases hbare
  exact Option.isSome_iff_exists.2 (exists_decoded?_of_feed (Prod.ext hsource hstring))

/-- Inside a string a character that is neither a quote nor a backslash stands for itself. -/
theorem Scanner.literal_of_decoded? {c : Char} {rest : Text} (h : (decoded? (c :: rest)).isSome)
    (hquote : c ≠ '"') (hback : c ≠ '\\') : Literal c := by
  refine ⟨hquote, hback, fun hcontrol => ?_⟩
  obtain ⟨value, hvalue⟩ := Option.isSome_iff_exists.1 h
  have hfeed := congrArg Prod.fst ((decoded?_eq_some_iff []).1 hvalue)
  have hadvance : (string 0 []).advance c = ([.stray], .stopped) := by
    simp only [advance, step, if_neg hquote, if_neg hback, if_pos hcontrol]
    rfl
  rw [feed, hadvance] at hfeed
  cases hfeed

/-- A text in a string without quotes and backslashes stands for itself, and what is behind it can
stand in a string. -/
theorem Scanner.literal_of_isSome_decoded? {source rest : Text} (h : (decoded? (source ++ rest)).isSome)
    (hquote : '"' ∉ source) (hback : '\\' ∉ source) : (∀ c ∈ source, Literal c) ∧
    (decoded? rest).isSome := by
  induction source with
  | nil => exact ⟨by simp, h⟩
  | cons c source ih =>
      obtain ⟨hc, hquote⟩ := not_or.1 (mt List.mem_cons.2 hquote)
      obtain ⟨hc', hback⟩ := not_or.1 (mt List.mem_cons.2 hback)
      have hliteral := literal_of_decoded? h (Ne.symm hc) (Ne.symm hc')
      have hfirst : (decoded? [c]).isSome := isSome_decoded?_of_literal (by simpa using hliteral)
      obtain ⟨hsource, hrest⟩ := ih ((isSome_decoded?_append_iff hfirst _).1 h) hquote hback
      exact ⟨List.forall_mem_cons.2 ⟨hliteral, hsource⟩, hrest⟩

namespace Number

/-- A character that can stand in a number. -/
def Mark (c : Char) : Prop := c.isDigit ∨ c ∈ ['.', 'e', 'E', '+', '-']

instance : DecidablePred Mark := fun _ => inferInstanceAs (Decidable (_ ∨ _))

theorem literal_of_mark {c : Char} (h : Mark c) : Literal c := by
  rcases h with hdigit | hmem
  · exact literal_of_isDigit hdigit
  · have hall : ['.', 'e', 'E', '+', '-'].all (Literal ·) = true := by decide
    exact of_decide_eq_true (List.all_eq_true.1 hall c hmem)

theorem Stage.mark_of_first {c : Char} {stage : Stage} (h : first c = some stage) : Mark c := by
  by_cases hdigit : c.isDigit
  · exact .inl hdigit
  rw [first] at h
  split at h
  · next heq => exact heq ▸ (by decide)
  · split at h
    · next heq => exact heq ▸ (by decide)
    · simp at h

theorem Stage.mark_of_next {c : Char} {stage next : Stage} (h : stage.next c = some next) : Mark c := by
  by_cases hdigit : c.isDigit
  · exact .inl hdigit
  have hmarks : c = '0' ∨ c = '.' ∨ (c = 'e' ∨ c = 'E') ∨ (c = '+' ∨ c = '-') := by
    refine Classical.byContradiction fun hnone => ?_
    obtain ⟨hzero, hpoint, hexponent, hsign⟩ : c ≠ '0' ∧ c ≠ '.' ∧ ¬(c = 'e' ∨ c = 'E') ∧
        ¬(c = '+' ∨ c = '-') := by
      simpa only [not_or] using hnone
    cases stage <;> simp [Stage.next, hdigit, hzero, hpoint, hexponent, hsign] at h
  rcases hmarks with rfl | rfl | (rfl | rfl) | (rfl | rfl) <;> decide

/-- How far a number has been read when it has gone on with a text. -/
def Stage.after (stage : Stage) : Text → Option Stage
  | [] => some stage
  | c :: rest => (stage.next c).bind fun next => next.after rest

theorem Stage.after_append (stage : Stage) (text more : Text) :
    stage.after (text ++ more) = (stage.after text).bind fun next => next.after more := by
  induction text generalizing stage with
  | nil => rfl
  | cons c rest ih =>
      rw [List.cons_append, after, after]
      cases stage.next c with
      | none => rfl
      | some next => exact ih next

/-- How far a number has been read that a text begins. -/
def stageOf? : Text → Option Stage
  | [] => none
  | c :: rest => (Stage.first c).bind fun stage => stage.after rest

theorem stageOf?_append_singleton {text : Text} {stage : Stage} (h : stageOf? text = some stage)
    (c : Char) :
    stageOf? (text ++ [c]) = stage.next c := by
  cases text with
  | nil => cases h
  | cons first rest =>
      rw [stageOf?, Option.bind_eq_some_iff] at h
      obtain ⟨begun, hfirst, hafter⟩ := h
      rw [List.cons_append, stageOf?, hfirst, Option.bind_some, Stage.after_append, hafter,
        Option.bind_some, Stage.after]
      cases stage.next c <;> rfl

/-- A text is the spelling that is kept of a number. -/
structure WellSpelled (spelling : Text) : Prop where
  complete : ∃ stage, stageOf? spelling = some stage ∧ stage.complete
  kept : keep spelling = spelling

theorem wellSpelled_keep {text : Text} {stage : Stage} (h : stageOf? text = some stage)
    (hcomplete : stage.complete) :
    WellSpelled (keep text) := by
  rw [keep]
  split
  · exact ⟨⟨.zero, rfl, rfl⟩, rfl⟩
  · next hkeep => exact ⟨⟨stage, h, hcomplete⟩, if_neg hkeep⟩

theorem exists_after_of_readFrom {stage : Stage} {left : Nat} {text : Text}
    (h : readFrom stage left text = .ok ()) :
    ∃ last, stage.after text = some last ∧ last.complete := by
  induction text generalizing stage left with
  | nil =>
      rw [readFrom] at h
      split at h
      · next hcomplete => exact ⟨stage, rfl, hcomplete⟩
      · cases h
  | cons c rest ih =>
      rw [readFrom] at h
      cases hnext : stage.next c with
      | none =>
          rw [hnext] at h
          cases h
      | some next =>
          rw [hnext] at h
          obtain ⟨last, hlast, hcomplete⟩ := ih h
          exact ⟨last, by rw [Stage.after, hnext]; exact hlast, hcomplete⟩

/-- The spelling of a number that is the text of a string. -/
theorem wellSpelled_of_read {text spelling : Text} (h : read text = .ok spelling) :
    WellSpelled spelling := by
  cases text with
  | nil => cases h
  | cons c rest =>
      rw [read] at h
      cases hfirst : Stage.first c with
      | none =>
          rw [hfirst] at h
          cases h
      | some stage =>
          rw [hfirst] at h
          dsimp only at h
          split at h
          · next hread =>
            cases h
            obtain ⟨last, hlast, hcomplete⟩ := exists_after_of_readFrom hread
            refine wellSpelled_keep ?_ hcomplete
            rw [stageOf?, hfirst]
            exact hlast
          · cases h

theorem Stage.mark_of_after {stage last : Stage} {text : Text} (h : stage.after text = some last) :
    ∀ c ∈ text, Mark c := by
  induction text generalizing stage with
  | nil => simp
  | cons c rest ih =>
      rw [after, Option.bind_eq_some_iff] at h
      obtain ⟨next, hnext, hafter⟩ := h
      exact List.forall_mem_cons.2 ⟨mark_of_next hnext, ih hafter⟩

theorem WellSpelled.mark {spelling : Text} (h : WellSpelled spelling) : ∀ c ∈ spelling, Mark c := by
  obtain ⟨stage, hstage, -⟩ := h.complete
  cases spelling with
  | nil => cases hstage
  | cons c rest =>
      rw [stageOf?, Option.bind_eq_some_iff] at hstage
      obtain ⟨first, hfirst, hafter⟩ := hstage
      exact List.forall_mem_cons.2 ⟨Stage.mark_of_first hfirst, Stage.mark_of_after hafter⟩

theorem WellSpelled.literal {spelling : Text} (h : WellSpelled spelling) :
    ∀ c ∈ spelling, Literal c := fun c hc =>
  literal_of_mark (h.mark c hc)

end Number

/-! Numbers in a text. -/

/-- If the token is a number, it has a spelling that is kept. -/
def Token.Spelled (token : Token) : Prop :=
  ∀ spelling, token = .number spelling → Number.WellSpelled spelling

namespace Scanner

/-- What the scanner is inside of is no number, or one that has been read as far as the stage
says. -/
def Spelled : Scanner → Prop
  | .number _ stage spelling => Number.stageOf? spelling.reverse = some stage
  | .literal _ token _ => token.Spelled
  | _ => True

/-- Tokens and a state in which all numbers are well spelled. -/
def AllSpelled (result : List Token × Scanner) : Prop :=
  (∀ token ∈ result.1, token.Spelled) ∧ result.2.Spelled

theorem spelled_of_not_number {token : Token} (h : ∀ spelling, token ≠ .number spelling) : token.Spelled :=
  fun spelling heq => absurd heq (h spelling)

theorem spelled_bare {token : Token} (h : token.Spelled) : token.bare.Spelled := by
  cases token <;> first | exact h | exact spelled_of_not_number (by simp [Token.bare])

theorem allSpelled_stray : AllSpelled ([.stray], .stopped) := ⟨by simp [Token.Spelled], trivial⟩

theorem allSpelled_single {token : Token} (h : token.Spelled) {before behind : Nat} :
    AllSpelled (placeless ([⟨token, before, behind⟩], .between)) :=
  ⟨by simpa [placeless, Lexeme.bare] using spelled_bare h, trivial⟩

theorem allSpelled_of_empty {scanner : Scanner} (h : scanner.Spelled) : AllSpelled ([], scanner) :=
  ⟨by simp, h⟩

theorem spelled_of_inside {scanner : Scanner} (h : scanner.inside) : scanner.Spelled := by
  cases scanner <;> first | exact trivial | cases h

theorem allSpelled_closeUnicode (before : Nat) (chars : Text) (high value : Option Nat) (left : Nat) :
    AllSpelled (placeless (closeUnicode before chars high value left)) := by
  rcases closeUnicode_cases before chars high value left with ⟨problem, hbreak⟩ | ⟨next, hnext, hclose⟩
  · rw [hbreak]
    exact allSpelled_stray
  · have hclosed := hclose []
    rw [List.append_nil, behind_nil] at hclosed
    rw [hclosed]
    exact allSpelled_of_empty (spelled_of_inside ((inside_bare next).trans hnext))

theorem allSpelled_start (left : Nat) (c : Char) : AllSpelled (placeless (start left c)) := by
  have hsingle : ∀ token : Token, (∀ spelling, token ≠ .number spelling) →
      AllSpelled (placeless ([⟨token, left, left - 1⟩], .between)) := fun token htoken =>
    allSpelled_single (spelled_of_not_number htoken)
  unfold start
  split
  · exact allSpelled_of_empty trivial
  · split
    case h_7 => exact allSpelled_of_empty trivial
    case h_8 => exact allSpelled_of_empty (spelled_of_not_number (by simp))
    case h_9 => exact allSpelled_of_empty (spelled_of_not_number (by simp))
    case h_10 => exact allSpelled_of_empty (spelled_of_not_number (by simp))
    case h_11 =>
      cases hfirst : Number.Stage.first c with
      | none => exact allSpelled_stray
      | some stage =>
          refine allSpelled_of_empty ?_
          change Number.stageOf? [c] = some stage
          rw [Number.stageOf?, hfirst]
          rfl
    all_goals exact hsingle _ (by simp)

theorem spelled_number {spelling : Text} {stage : Number.Stage}
    (h : Number.stageOf? spelling.reverse = some stage) (hcomplete : stage.complete) :
    (Token.number (Number.keep spelling.reverse)).Spelled := by
  rintro _ ⟨⟩
  exact Number.wellSpelled_keep h hcomplete

/-- With one more character the numbers are still well spelled. -/
theorem allSpelled_advance {scanner : Scanner} (h : scanner.Spelled) (c : Char) :
    AllSpelled (scanner.advance c) := by
  unfold advance
  cases scanner with
  | between => exact allSpelled_start 0 c
  | stopped => exact allSpelled_of_empty trivial
  | literal before token rest =>
      cases rest with
      | nil => exact allSpelled_of_empty trivial
      | cons expected more =>
          simp only [step]
          split
          · exact allSpelled_stray
          · split
            · exact allSpelled_single h
            · exact allSpelled_of_empty h
  | number before stage spelling =>
      cases hnext : stage.next c with
      | some next =>
          simp only [step, hnext]
          refine allSpelled_of_empty ?_
          change Number.stageOf? (c :: spelling).reverse = some next
          rw [List.reverse_cons, Number.stageOf?_append_singleton h, hnext]
      | none =>
          simp only [step, hnext]
          split
          · exact allSpelled_stray
          · next hwhole =>
            have hcomplete : stage.complete := Classical.byContradiction fun hnot => hwhole (by simp [hnot])
            obtain ⟨htokens, hstate⟩ := allSpelled_start 0 c
            exact ⟨List.forall_mem_cons.2 ⟨spelled_number h hcomplete, htokens⟩, hstate⟩
  | string before chars =>
      simp only [step]
      split
      · exact allSpelled_single (spelled_of_not_number (by simp))
      · split
        · exact allSpelled_of_empty trivial
        · split
          · exact allSpelled_stray
          · exact allSpelled_of_empty trivial
  | escape before chars =>
      simp only [step]
      split
      · exact allSpelled_of_empty trivial
      · split
        · exact allSpelled_of_empty trivial
        · exact allSpelled_stray
  | unicode before chars high missing value =>
      rw [step_unicode]
      split
      · exact allSpelled_closeUnicode ..
      · exact allSpelled_of_empty trivial
  | pairBackslash before chars high =>
      simp only [step]
      split
      · exact allSpelled_of_empty trivial
      · exact allSpelled_stray
  | pairMark before chars high =>
      simp only [step]
      split
      · exact allSpelled_of_empty trivial
      · exact allSpelled_stray

theorem allSpelled_feed {scanner : Scanner} (h : scanner.Spelled) (text : Text) :
    AllSpelled (scanner.feed text) := by
  induction text generalizing scanner with
  | nil => exact allSpelled_of_empty h
  | cons c rest ih =>
      obtain ⟨htokens, hstate⟩ := allSpelled_advance h c
      obtain ⟨hrest, hend⟩ := ih hstate
      exact ⟨fun token hmem => (List.mem_append.1 hmem).elim (htokens token) (hrest token), hend⟩

theorem spelled_of_mem_closing {scanner : Scanner} (h : scanner.Spelled) {token : Token}
    (htoken : token ∈ scanner.closing) : token.Spelled := by
  have hstray : ∀ token ∈ [Token.stray], token.Spelled := by simp [Token.Spelled]
  cases scanner with
  | between => cases htoken
  | stopped => cases htoken
  | number before stage spelling =>
      rw [closing, finish] at htoken
      split at htoken
      · next hcomplete => exact List.mem_singleton.1 htoken ▸ spelled_number h hcomplete
      · exact hstray _ htoken
  | _ => exact hstray _ htoken

end Scanner

/-- The numbers of a text are well spelled. -/
theorem spelled_of_mem_tokens {text : Text} {token : Token} (h : token ∈ tokens text) : token.Spelled := by
  have hfeed := @Scanner.allSpelled_feed .between trivial text
  exact (List.mem_append.1 h).elim (hfeed.1 token) (Scanner.spelled_of_mem_closing hfeed.2)

theorem Scanner.feed_number {stage last : Number.Stage} {text : Text}
    (h : stage.after text = some last) (chars : Text) :
    (number 0 stage chars).feed text = ([], .number 0 last (text.reverse ++ chars)) := by
  induction text generalizing stage chars with
  | nil =>
      cases h
      rfl
  | cons c rest ih =>
      rw [Number.Stage.after, Option.bind_eq_some_iff] at h
      obtain ⟨next, hnext, hafter⟩ := h
      have hadvance : (number 0 stage chars).advance c = ([], .number 0 next (c :: chars)) := by
        simp only [advance, step, hnext]
        rfl
      rw [feed, hadvance, ih hafter, List.reverse_cons, List.append_assoc]
      rfl

theorem Scanner.start_of_first {c : Char} {stage : Number.Stage}
    (h : Number.Stage.first c = some stage) (left : Nat) :
    start left c = ([], .number left stage [c]) := by
  have hne : ∀ c', Number.Stage.first c' = none → c ≠ c' := by
    rintro c' hnone rfl
    rw [h] at hnone
    cases hnone
  have hblank : isBlank c = false := by
    simp [isBlank, hne ' ' rfl, hne '\n' rfl, hne '\t' rfl, hne '\r' rfl]
  unfold start
  rw [hblank, if_neg Bool.false_ne_true]
  split
  case h_11 => rw [h]
  all_goals exact absurd rfl (hne _ rfl)

/-- A spelling is one number if nothing goes on with it. -/
theorem Scanner.scan_spelling {spelling rest : Text} (h : Number.WellSpelled spelling)
    (hrest : ∀ c more, rest = c :: more → ¬Number.Mark c) :
    between.scan (spelling ++ rest) = .number spelling :: between.scan rest := by
  obtain ⟨stage, hstage, hcomplete⟩ := h.complete
  have hkept : Number.keep spelling.reverse.reverse = spelling := by rw [List.reverse_reverse, h.kept]
  have hfeed : between.feed spelling = ([], .number 0 stage spelling.reverse) := by
    cases spelling with
    | nil => cases hstage
    | cons c more =>
        rw [Number.stageOf?, Option.bind_eq_some_iff] at hstage
        obtain ⟨first, hfirst, hafter⟩ := hstage
        have hadvance : between.advance c = ([], .number 0 first [c]) := by
          rw [advance, step, start_of_first hfirst]
          rfl
        rw [feed, hadvance, feed_number hafter, List.reverse_cons]
        rfl
  rw [scan, feed_append, hfeed]
  cases rest with
  | nil =>
      simp only [feed, closing, finish, if_pos hcomplete, hkept]
      rfl
  | cons c more =>
      have hmark := hrest c more rfl
      have hnext : stage.next c = none :=
        Option.eq_none_iff_forall_ne_some.2 fun next hnext => hmark (Number.Stage.mark_of_next hnext)
      have hdigit : c.isDigit = false := Bool.eq_false_iff.2 fun hdigit => hmark (.inl hdigit)
      have hadvance : (number 0 stage spelling.reverse).advance c =
          (.number spelling :: (between.advance c).1, (between.advance c).2) := by
        have hwhole : ¬(!stage.complete || (stage = .zero && c.isDigit)) = true := by
          simp [hcomplete, hdigit]
        simp only [advance, step, hnext, if_neg hwhole, hkept]
        rfl
      simp only [feed, hadvance, scan]
      rfl

/-! Numbers in a value. -/

/-- All numbers in a value are well spelled. -/
inductive Spelled : Json → Prop
  | null : Spelled .null
  | bool {value} : Spelled (.bool value)
  | number {spelling} (h : Number.WellSpelled spelling) : Spelled (.number spelling)
  | string {text} : Spelled (.string text)
  | array {items} (h : ∀ item ∈ items, Spelled item) : Spelled (.array items)
  | object {members} (h : ∀ member ∈ members, Spelled member.2) : Spelled (.object members)

/-- Of lists in which equal values with a property stand side by side both are one list of such
values. -/
theorem eq_and_forall_of_forall₂ {α : Type} {p : α → Prop} {l l' : List α}
    (h : List.Forall₂ (fun a a' => a = a' ∧ p a) l l') : l = l' ∧ ∀ a ∈ l, p a := by
  induction h with
  | nil => exact ⟨rfl, by simp⟩
  | cons hhead _ ih =>
      obtain ⟨rfl, ha⟩ := hhead
      obtain ⟨rfl, hrest⟩ := ih
      exact ⟨rfl, List.forall_mem_cons.2 ⟨ha, hrest⟩⟩

theorem related_spelled :
    Builder.Related (fun value value' => value = value' ∧ value.Spelled) .json .json where
  array h := by
    obtain ⟨rfl, hitems⟩ := eq_and_forall_of_forall₂ h
    exact ⟨rfl, .array hitems⟩
  object h := by
    obtain ⟨rfl, hmembers⟩ := eq_and_forall_of_forall₂ (h.imp fun member member' hmember =>
      (⟨Prod.ext hmember.1 hmember.2.1, hmember.2.2⟩ : member = member' ∧ member.2.Spelled))
    exact ⟨rfl, .object hmembers⟩
  number h := ⟨rfl, .number (Number.wellSpelled_of_read h)⟩

theorem spelled_of_read {text : Text} {value : Json} (h : read text = .ok value) : value.Spelled := by
  have halike : Reader.AllAlike (fun value value' => value = value' ∧ value.Spelled) .json .json
    (.reading [] .value) (tokens text) (tokens text) := by
    refine Reader.allAlike_self (fun token hmem value value' hvalue hvalue' => ?_) _
    obtain rfl := Option.some.inj (hvalue.symm.trans hvalue')
    refine ⟨rfl, ?_⟩
    cases token with
    | null =>
        cases hvalue
        exact .null
    | bool value =>
        cases hvalue
        exact .bool
    | number spelling =>
        cases hvalue
        exact .number (spelled_of_mem_tokens hmem spelling rfl)
    | string text =>
        cases hvalue
        exact .string
    | _ => cases hvalue
  obtain ⟨next', -, hnext⟩ := (read_eq_ok_iff.1 h).related related_spelled (.reading .nil (by simp)) halike
  cases hnext with
  | done hvalue => exact hvalue.2

end ServerPack.Json
