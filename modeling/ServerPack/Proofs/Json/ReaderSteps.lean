import Mathlib.Data.List.Forall2
import ServerPack.Proofs.Json.Tokens

/-!
What the reader can do with a token, whatever is built (`Reader.step_eq_ok_iff`), and with the
tokens of a text one after the other (`read_eq_ok_iff`). Two readers that build related values from
tokens that are alike stay side by side (`Reader.Goes.related`, `Reader.Runs.related`): tokens are
alike if they are the same, or if they are values on their own and the reader takes a value where
they stand.
-/

namespace ServerPack.Json

variable {α β : Type}

/-- A value may come next. -/
def Expecting.takesValue : Expecting → Bool
  | .value | .elementOrClose | .element => true
  | .keyOrClose | .key | .colon | .separator | .numberColon | .numberText | .numberClose _ => false

/-- What is made of a token that is a value of its own. -/
def Token.scalar? (build : Builder α) : Token → Option α
  | .null => some build.null
  | .bool value => some (build.bool value)
  | .number spelling => some (build.number spelling)
  | .string value => some (build.string value)
  | .arrayOpen | .arrayClose | .objectOpen | .objectClose | .comma | .colon | .brokenString
    _ | .brokenScalar _
  | .stray => none

namespace Reader

/-- What the reader can do with a token. -/
inductive Goes (build : Builder α) : Reader α → Token → Reader α → Prop
  | scalar {stack expecting token value} (htakes : expecting.takesValue)
    (hscalar : token.scalar? build = some value) :
      Goes build (.reading stack expecting) token (complete value stack)
  | openArray {stack expecting} (htakes : expecting.takesValue) (hroom : stack.length < maxOpen) :
      Goes build (.reading stack expecting) .arrayOpen (.reading (.array [] :: stack) .elementOrClose)
  | openObject {stack expecting} (htakes : expecting.takesValue) (hroom : stack.length < maxOpen) :
      Goes build (.reading stack expecting) .objectOpen (.reading (.object [] [] :: stack) .keyOrClose)
  | closeArray {items stack expecting} (hends : expecting = .elementOrClose ∨ expecting = .separator) :
      Goes build (.reading (.array items :: stack) expecting) .arrayClose
        (complete (build.array items.reverse) stack)
  | closeObject {members key stack expecting} (hends : expecting = .keyOrClose ∨ expecting = .separator) :
      Goes build (.reading (.object members key :: stack) expecting) .objectClose
        (complete (build.object members) stack)
  | firstKey {members last stack key} :
      Goes build (.reading (.object members last :: stack) .keyOrClose) (.string key)
        (.reading (.object members key :: stack) (if key = numberKey then .numberColon else .colon))
  | key {members last stack key} :
      Goes build (.reading (.object members last :: stack) .key) (.string key)
        (.reading (.object members key :: stack) .colon)
  | colon {stack} : Goes build (.reading stack .colon) .colon (.reading stack .value)
  | numberColon {stack} : Goes build (.reading stack .numberColon) .colon (.reading stack .numberText)
  | nextElement {items stack} :
      Goes build (.reading (.array items :: stack) .separator) .comma
        (.reading (.array items :: stack) .element)
  | nextMember {members key stack} :
      Goes build (.reading (.object members key :: stack) .separator) .comma
        (.reading (.object members key :: stack) .key)
  | numberText {stack text spelling} (hnumber : Number.read text = .ok spelling) :
      Goes build (.reading stack .numberText) (.string text) (.reading stack (.numberClose spelling))
  | numberClose {stack spelling} :
      Goes build (.reading stack (.numberClose spelling)) .objectClose
        (complete (build.number spelling) stack.tail)

variable {build : Builder α}

theorem openContainer_eq_ok_iff {lexeme : Lexeme} {stack : List (Frame α)} {frame : Frame α}
    {expecting : Expecting} {next : Reader α} : openContainer lexeme stack frame expecting = .ok next ↔
      stack.length < maxOpen ∧ next = .reading (frame :: stack) expecting := by
  rw [openContainer]
  split
  · next hroom => simp [hroom, eq_comm]
  · next hroom => simp [hroom]

theorem goes_of_readValue {lexeme : Lexeme} {stack : List (Frame α)} {otherwise : Problem}
    {expecting : Expecting} (htakes : expecting.takesValue) {next : Reader α}
    (h : readValue build lexeme stack otherwise = .ok next) :
    Goes build (.reading stack expecting) lexeme.token next := by
  obtain ⟨token, before, behind⟩ := lexeme
  cases token with
  | arrayOpen =>
      obtain ⟨hroom, rfl⟩ := openContainer_eq_ok_iff.1 h
      exact .openArray htakes hroom
  | objectOpen =>
      obtain ⟨hroom, rfl⟩ := openContainer_eq_ok_iff.1 h
      exact .openObject htakes hroom
  | _ => cases h <;> exact .scalar htakes rfl

theorem readValue_of_scalar {token : Token} {value : α} (h : token.scalar? build = some value)
    (before behind : Nat) (stack : List (Frame α)) (otherwise : Problem) :
    readValue build ⟨token, before, behind⟩ stack otherwise = .ok (complete value stack) := by
  cases token <;> cases h <;> rfl

/-- Where a value may come next the token is read as one, unless it closes the array that has just
been opened. -/
theorem step_of_takesValue {expecting : Expecting} (htakes : expecting.takesValue) {token : Token}
    (htoken : token ≠ .arrayClose) (stack : List (Frame α)) (before behind : Nat) :
    ∃ otherwise, step build (.reading stack expecting) ⟨token, before, behind⟩ =
      readValue build ⟨token, before, behind⟩ stack otherwise := by
  cases expecting with
  | value => exact ⟨.expectedValue, rfl⟩
  | element => cases token <;> first | exact absurd rfl htoken | exact ⟨.expectedValue, rfl⟩
  | elementOrClose => cases token <;> first | exact absurd rfl htoken | exact ⟨.expectedValue, rfl⟩
  | _ => cases htakes

theorem goes_of_readNumberText {lexeme : Lexeme} {stack : List (Frame α)} {next : Reader α}
    (h : readNumberText lexeme stack = .ok next) :
    Goes build (.reading stack .numberText) lexeme.token next := by
  obtain ⟨token, before, behind⟩ := lexeme
  cases token with
  | string text =>
      change (Number.read text).map (fun spelling => reading stack (.numberClose spelling)) = .ok next at h
      cases hnumber : Number.read text with
      | error fault =>
          rw [hnumber] at h
          cases h
      | ok spelling =>
          rw [hnumber] at h
          cases h
          exact .numberText hnumber
  | _ => cases h

theorem goes_of_step {reader next : Reader α} {lexeme : Lexeme} (h : reader.step build lexeme = .ok next) :
    Goes build reader lexeme.token next := by
  obtain ⟨token, before, behind⟩ := lexeme
  cases reader with
  | done value => cases h
  | reading stack expecting =>
      by_cases hvalue : expecting.takesValue = true ∧ token ≠ .arrayClose
      · obtain ⟨otherwise, hstep⟩ := @step_of_takesValue _ build _ hvalue.1 token hvalue.2 stack
          before behind
        exact goes_of_readValue hvalue.1 (hstep.symm.trans h)
      -- What is left are the places where no value may come and the end of an array without
      -- elements.
      cases expecting with
      | value => exact goes_of_readValue rfl h
      | elementOrClose =>
          obtain rfl : token = .arrayClose := Classical.byContradiction fun hne => hvalue ⟨rfl, hne⟩
          rcases stack with _ | ⟨_ | _, stack⟩ <;> cases h
          exact .closeArray (.inl rfl)
      | element =>
          obtain rfl : token = .arrayClose := Classical.byContradiction fun hne => hvalue ⟨rfl, hne⟩
          cases h
      | keyOrClose =>
          rcases stack with _ | ⟨_ | _, stack⟩ <;> cases token <;> cases h
          · exact .closeObject (.inl rfl)
          · exact .firstKey
      | key =>
          rcases stack with _ | ⟨_ | _, stack⟩ <;> cases token <;> cases h
          exact .key
      | colon =>
          cases token <;> cases h
          exact .colon
      | numberColon =>
          cases token <;> cases h
          exact .numberColon
      | separator =>
          rcases stack with _ | ⟨_ | _, stack⟩ <;> cases token <;> cases h
          · exact .closeArray (.inr rfl)
          · exact .nextElement
          · exact .closeObject (.inr rfl)
          · exact .nextMember
      | numberText => exact goes_of_readNumberText h
      | numberClose spelling =>
          cases token <;> cases h
          exact .numberClose

theorem step_of_goes {reader next : Reader α} {token : Token} (h : Goes build reader token next)
    (before behind : Nat) :
    reader.step build ⟨token, before, behind⟩ = .ok next := by
  cases h with
  | scalar htakes hscalar =>
      have hne : token ≠ .arrayClose := by
        rintro rfl
        cases hscalar
      obtain ⟨otherwise, hstep⟩ := @step_of_takesValue _ build _ htakes token hne _ before behind
      exact hstep.trans (readValue_of_scalar hscalar ..)
  | openArray htakes hroom =>
      obtain ⟨otherwise, hstep⟩ := @step_of_takesValue _ build _ htakes .arrayOpen (by simp) _ before behind
      exact hstep.trans (if_pos hroom)
  | openObject htakes hroom =>
      obtain ⟨otherwise, hstep⟩ := @step_of_takesValue _ build _ htakes .objectOpen
        (by simp) _ before behind
      exact hstep.trans (if_pos hroom)
  | closeArray hends => rcases hends with rfl | rfl <;> rfl
  | closeObject hends => rcases hends with rfl | rfl <;> rfl
  | numberText hnumber =>
      change (Number.read _).map _ = _
      rw [hnumber]
      rfl
  | _ => rfl

/-- The reader goes on where it can, and the places of the tokens have no part in that. -/
theorem step_eq_ok_iff {reader next : Reader α} {lexeme : Lexeme} :
    reader.step build lexeme = .ok next ↔ Goes build reader lexeme.token next :=
  ⟨goes_of_step, fun h => step_of_goes h lexeme.before lexeme.behind⟩

theorem Goes.unique {reader next next' : Reader α} {token : Token} (h : Goes build reader token next)
    (h' : Goes build reader token next') : next = next' :=
  Except.ok.inj ((step_of_goes h 0 0).symm.trans (step_of_goes h' 0 0))

theorem goes_bare {reader next : Reader α} {token : Token} :
    Goes build reader token.bare next ↔ Goes build reader token next := by
  cases token <;> first | exact Iff.rfl | (constructor <;> intro h <;> cases h <;>
    cases ‹Token.scalar? _ _ = _›)

/-- What the reader can do with tokens one after the other. -/
inductive Runs (build : Builder α) : Reader α → List Token → Reader α → Prop
  | nil {reader} : Runs build reader [] reader
  | cons {reader token between rest next} (hgoes : Goes build reader token between)
      (hrest : Runs build between rest next) : Runs build reader (token :: rest) next

theorem runs_cons_iff {reader next : Reader α} {token : Token} {rest : List Token} :
    Runs build reader (token :: rest) next ↔
      ∃ between, Goes build reader token between ∧ Runs build between rest next := by
  constructor
  · intro h
    cases h with
    | cons hgoes hrest => exact ⟨_, hgoes, hrest⟩
  · rintro ⟨between, hgoes, hrest⟩
    exact .cons hgoes hrest

theorem runs_append_iff {reader next : Reader α} {tokens tokens' : List Token} :
    Runs build reader (tokens ++ tokens') next ↔
      ∃ between, Runs build reader tokens between ∧ Runs build between tokens' next := by
  induction tokens generalizing reader with
  | nil =>
      refine ⟨fun h => ⟨reader, .nil, h⟩, ?_⟩
      rintro ⟨between, hnil, h⟩
      cases hnil
      exact h
  | cons token rest ih =>
      simp only [List.cons_append, runs_cons_iff, ih]
      constructor
      · rintro ⟨first, hgoes, between, hrest, h⟩
        exact ⟨between, ⟨first, hgoes, hrest⟩, h⟩
      · rintro ⟨between, ⟨first, hgoes, hrest⟩, h⟩
        exact ⟨first, hgoes, between, hrest, h⟩

theorem Runs.unique {reader next next' : Reader α} {tokens : List Token} (h : Runs build reader tokens next)
    (h' : Runs build reader tokens next') : next = next' := by
  induction h with
  | nil =>
      cases h'
      rfl
  | cons hgoes _ ih =>
      obtain ⟨_, hgoes', hrest'⟩ := runs_cons_iff.1 h'
      exact ih (hgoes.unique hgoes' ▸ hrest')

theorem Runs.not_stray {reader next : Reader α} {tokens : List Token} (h : Runs build reader tokens next) :
    .stray ∉ tokens := by
  induction h with
  | nil => simp
  | cons hgoes _ ih =>
      refine not_or.2 ⟨?_, ih⟩ ∘ List.mem_cons.1
      rintro rfl
      cases hgoes
      cases ‹Token.scalar? _ _ = _›

theorem foldlM_step_eq_ok_iff {list : List Lexeme} {reader next : Reader α} :
    list.foldlM (step build) reader = .ok next ↔ Runs build reader (list.map Lexeme.bare) next := by
  induction list generalizing reader with
  | nil =>
      constructor
      · intro h
        cases h
        exact .nil
      · intro h
        cases h
        rfl
  | cons lexeme rest ih =>
      rw [List.foldlM_cons, List.map_cons, runs_cons_iff]
      cases hstep : reader.step build lexeme with
      | error fault =>
          refine ⟨fun h => (by cases h), ?_⟩
          rintro ⟨between, hgoes, -⟩
          rw [Lexeme.bare, goes_bare, ← step_eq_ok_iff, hstep] at hgoes
          cases hgoes
      | ok between =>
          refine ih.trans ⟨fun h => ⟨between, goes_bare.2 (step_eq_ok_iff.1 hstep), h⟩, ?_⟩
          rintro ⟨between', hgoes, h⟩
          exact hgoes.unique (goes_bare.2 (step_eq_ok_iff.1 hstep)) ▸ h

theorem runs_map_bare {reader next : Reader α} {tokens : List Token} :
    Runs build reader (tokens.map Token.bare) next ↔ Runs build reader tokens next := by
  induction tokens generalizing reader with
  | nil => exact .rfl
  | cons token rest ih => simp only [List.map_cons, runs_cons_iff, goes_bare, ih]

/-- What the reader expects behind tokens, unless they are too many or there is one that it cannot
go on with. -/
def expectingBehind? (tokens : List Token) : Option Expecting :=
  match (tokens.map fun token => (⟨token, 0, 0⟩ : Lexeme)).foldlM (step .json) (.reading [] .value) with
  | .ok (.reading _ expecting) => some expecting
  | _ => none

theorem exists_runs_of_expectingBehind? {tokens : List Token} {expecting : Expecting}
    (h : expectingBehind? tokens = some expecting) :
    ∃ stack, Runs .json (.reading [] .value) tokens (.reading stack expecting) := by
  rw [expectingBehind?] at h
  split at h
  · next stack _ hfold =>
    cases h
    have hruns := foldlM_step_eq_ok_iff.1 hfold
    rw [List.map_map] at hruns
    exact ⟨stack, runs_map_bare.1 hruns⟩
  · cases h

theorem finish_eq_ok_iff {reader : Reader α} {value : α} : reader.finish = .ok value ↔
    reader = .done value := by
  cases reader with
  | done value' =>
      exact ⟨fun h => congrArg Reader.done (Except.ok.inj h), fun h =>
        congrArg Except.ok (Reader.done.inj h)⟩
  | reading stack expecting => exact ⟨fun h => (by cases h), fun h => by cases h⟩

end Reader

open Reader (Runs)

/-- A text is written for a value if the reader comes to it with the tokens of the text. -/
theorem read_eq_ok_iff {text : Text} {value : Json} :
    read text = .ok value ↔ Runs .json (.reading [] .value) (tokens text) (.done value) := by
  rw [read, ofLexemes, ← map_bare_lexemes, ← Reader.foldlM_step_eq_ok_iff]
  cases (lexemes text).foldlM (Reader.step .json) (.reading [] .value) with
  | error fault => exact ⟨fun h => (by cases h), fun h => by cases h⟩
  | ok reader =>
      exact Reader.finish_eq_ok_iff.trans ⟨fun h => congrArg Except.ok h, fun h => Except.ok.inj h⟩

/-! Two readers side by side. -/

/-- Members with the same keys and related values. -/
def RelatedMembers (R : α → β → Prop) : List (Text × α) → List (Text × β) → Prop :=
  List.Forall₂ fun member member' => member.1 = member'.1 ∧ R member.2 member'.2

/-- Two builders make related containers of related values. -/
structure Builder.Related (R : α → β → Prop) (build : Builder α) (build' : Builder β) : Prop where
  array {items items'} (h : List.Forall₂ R items items') : R (build.array items) (build'.array items')
  object {members members'} (h : RelatedMembers R members members') :
    R (build.object members) (build'.object members')
  number {text spelling} (h : Number.read text = .ok spelling) :
    R (build.number spelling) (build'.number spelling)

/-- Two open containers hold related values. -/
inductive Frame.Related (R : α → β → Prop) : Frame α → Frame β → Prop
  | array {items items'} (h : List.Forall₂ R items items') : Related R (.array items) (.array items')
  | object {members members' key} (h : RelatedMembers R members members') :
      Related R (.object members key) (.object members' key)

theorem relatedMembers_insert {R : α → β → Prop} (key : Text) {value : α} {value' : β}
    (hvalue : R value value') {members : List (Text × α)} {members' : List (Text × β)}
    (h : RelatedMembers R members members') :
    RelatedMembers R (Dictionary.insert key value members) (Dictionary.insert key value' members') := by
  induction h with
  | nil => exact .cons ⟨rfl, hvalue⟩ .nil
  | @cons member member' rest rest' hmember hrest ih =>
      obtain ⟨first, made⟩ := member
      obtain ⟨first', made'⟩ := member'
      obtain ⟨rfl, hmade⟩ : first = first' ∧ R made made' := hmember
      rw [Dictionary.insert, Dictionary.insert]
      split
      · exact .cons ⟨rfl, hvalue⟩ (.cons ⟨rfl, hmade⟩ hrest)
      · split
        · exact .cons ⟨rfl, hvalue⟩ hrest
        · exact .cons ⟨rfl, hmade⟩ ih

namespace Reader

variable {R : α → β → Prop} {build : Builder α} {build' : Builder β}

/-- Two readers are at the same place with related values. -/
inductive Related (R : α → β → Prop) (build : Builder α) (build' : Builder β) : Reader α → Reader β → Prop
  | reading {stack stack' expecting} (hstack : List.Forall₂ (Frame.Related R) stack stack')
      (hnumber : ∀ spelling, expecting = .numberClose spelling →
        R (build.number spelling) (build'.number spelling)) :
      Related R build build' (.reading stack expecting) (.reading stack' expecting)
  | done {value value'} (h : R value value') : Related R build build' (.done value) (.done value')

/-- Two tokens do the same at a place: values that are made of them are related there, or they are
the same. -/
inductive Alike (R : α → β → Prop) (build : Builder α) (build' : Builder β) : Reader α → Token →
    Token → Prop
  | scalar {stack expecting token token' value value'} (htakes : expecting.takesValue)
      (hvalue : token.scalar? build = some value) (hvalue' : token'.scalar? build' = some value')
      (h : R value value') :
      Alike R build build' (.reading stack expecting) token token'
  | same {reader token} (h : ∀ {stack expecting value}, reader = .reading stack expecting →
    expecting.takesValue →
      token.scalar? build ≠ some value) : Alike R build build' reader token token

/-- The tokens of two lists do the same one after the other. -/
inductive AllAlike (R : α → β → Prop) (build : Builder α) (build' : Builder β) :
    Reader α → List Token → List Token → Prop
  | nil {reader} : AllAlike R build build' reader [] []
  | cons {reader token token' rest rest'} (htoken : Alike R build build' reader token token')
      (hrest : ∀ next, Goes build reader token next → AllAlike R build build' next rest rest') :
      AllAlike R build build' reader (token :: rest) (token' :: rest')

theorem related_complete {value : α} {value' : β} (hvalue : R value value') {stack : List (Frame α)}
    {stack' : List (Frame β)} (h : List.Forall₂ (Frame.Related R) stack stack') :
    Related R build build' (complete value stack) (complete value' stack') := by
  cases h with
  | nil => exact .done hvalue
  | cons hframe hstack =>
      cases hframe with
      | array hitems => exact .reading (.cons (.array (.cons hvalue hitems)) hstack) (by simp)
      | object hmembers => exact .reading (.cons
        (.object (relatedMembers_insert _ hvalue hmembers)) hstack) (by simp)

/-- A reader can do with a token what one with related values can do with a token alike. -/
theorem Goes.related (hbuild : Builder.Related R build build') {reader next : Reader α} {reader' : Reader β}
    {token token' : Token} (h : Goes build reader token next)
    (hreader : Related R build build' reader reader') (htoken : Alike R build build' reader token token') :
    ∃ next', Goes build' reader' token' next' ∧ Related R build build' next next' := by
  cases htoken with
  | scalar htakes hvalue hvalue' hR =>
      cases hreader with
      | reading hstack _ =>
          obtain rfl := h.unique (.scalar htakes hvalue)
          exact ⟨_, .scalar htakes hvalue', related_complete hR hstack⟩
  | same hnot =>
      cases hreader with
      | done => cases h
      | reading hstack hspelling =>
          cases h with
          | scalar htakes hscalar => exact absurd hscalar (hnot rfl htakes)
          | openArray htakes hroom =>
              exact ⟨_, .openArray htakes (hstack.length_eq ▸ hroom),
                .reading (.cons (.array .nil) hstack) (by simp)⟩
          | openObject htakes hroom =>
              exact ⟨_, .openObject htakes (hstack.length_eq ▸ hroom),
                .reading (.cons (.object .nil) hstack) (by simp)⟩
          | closeArray hends =>
              obtain ⟨_, _, ⟨hitems⟩, hrest, rfl⟩ := List.forall₂_cons_left_iff.1 hstack
              exact ⟨_, .closeArray hends, related_complete (hbuild.array (List.rel_reverse hitems)) hrest⟩
          | closeObject hends =>
              obtain ⟨_, _, hframe, hrest, rfl⟩ := List.forall₂_cons_left_iff.1 hstack
              obtain _ | ⟨hmembers⟩ := hframe
              exact ⟨_, .closeObject hends, related_complete (hbuild.object hmembers) hrest⟩
          | firstKey =>
              obtain ⟨_, _, hframe, hrest, rfl⟩ := List.forall₂_cons_left_iff.1 hstack
              obtain _ | ⟨hmembers⟩ := hframe
              refine ⟨_, .firstKey, .reading (.cons (.object hmembers) hrest) fun spelling hclose => ?_⟩
              split at hclose <;> cases hclose
          | key =>
              obtain ⟨_, _, hframe, hrest, rfl⟩ := List.forall₂_cons_left_iff.1 hstack
              obtain _ | ⟨hmembers⟩ := hframe
              exact ⟨_, .key, .reading (.cons (.object hmembers) hrest) (by simp)⟩
          | colon => exact ⟨_, .colon, .reading hstack (by simp)⟩
          | numberColon => exact ⟨_, .numberColon, .reading hstack (by simp)⟩
          | nextElement =>
              obtain ⟨_, _, ⟨hitems⟩, hrest, rfl⟩ := List.forall₂_cons_left_iff.1 hstack
              exact ⟨_, .nextElement, .reading (.cons (.array hitems) hrest) (by simp)⟩
          | nextMember =>
              obtain ⟨_, _, hframe, hrest, rfl⟩ := List.forall₂_cons_left_iff.1 hstack
              obtain _ | ⟨hmembers⟩ := hframe
              exact ⟨_, .nextMember, .reading (.cons (.object hmembers) hrest) (by simp)⟩
          | numberText hnumber =>
              refine ⟨_, .numberText hnumber, .reading hstack fun spelling hclose => ?_⟩
              cases hclose
              exact hbuild.number hnumber
          | numberClose =>
              refine ⟨_, .numberClose, related_complete (hspelling _ rfl) ?_⟩
              cases hstack with
              | nil => exact .nil
              | cons _ hrest => exact hrest

theorem Runs.related (hbuild : Builder.Related R build build') {reader next : Reader α} {reader' : Reader β}
    {tokens tokens' : List Token} (h : Runs build reader tokens next)
    (hreader : Related R build build' reader reader')
    (htokens : AllAlike R build build' reader tokens tokens') :
    ∃ next', Runs build' reader' tokens' next' ∧ Related R build build' next next' := by
  induction h generalizing reader' tokens' with
  | nil =>
      cases htokens
      exact ⟨reader', .nil, hreader⟩
  | cons hgoes _ ih =>
      cases htokens with
      | cons htoken hrest =>
          obtain ⟨between', hgoes', hbetween⟩ := hgoes.related hbuild hreader htoken
          obtain ⟨next', hruns', hnext⟩ := ih hbetween (hrest _ hgoes)
          exact ⟨next', .cons hgoes' hruns', hnext⟩

theorem isSome_scalar? (build : Builder α) (build' : Builder β) (token : Token) :
    (token.scalar? build).isSome = (token.scalar? build').isSome := by
  cases token <;> rfl

/-- A token does the same as itself if related values are made of it. -/
theorem alike_self {token : Token} (h : ∀ value value', token.scalar? build = some value →
    token.scalar? build' = some value' → R value value') (reader : Reader α) :
    Alike R build build' reader token token := by
  cases hvalue : token.scalar? build with
  | none => exact .same fun _ _ => by simp [hvalue]
  | some value =>
      have hsome : (token.scalar? build').isSome := by
        rw [← isSome_scalar? build, hvalue]
        rfl
      obtain ⟨value', hvalue'⟩ := Option.isSome_iff_exists.1 hsome
      cases reader with
      | done value => exact .same fun h => (by cases h)
      | reading stack expecting =>
          by_cases htakes : expecting.takesValue
          · exact .scalar htakes hvalue hvalue' (h _ _ hvalue hvalue')
          · exact .same fun heq htakes' => by cases heq; exact absurd htakes' htakes

theorem allAlike_self {tokens : List Token}
    (h : ∀ token ∈ tokens, ∀ value value', token.scalar? build = some value →
    token.scalar? build' = some value' → R value value') (reader : Reader α) :
    AllAlike R build build' reader tokens tokens := by
  induction tokens generalizing reader with
  | nil => exact .nil
  | cons token rest ih =>
      exact .cons (alike_self (h token List.mem_cons_self) reader) fun next _ =>
        ih (fun token hmem => h token (List.mem_cons_of_mem _ hmem)) next

theorem AllAlike.append {reader : Reader α} {tokens tokens' more more' : List Token}
    (h : AllAlike R build build' reader tokens tokens')
    (hmore : ∀ next, Runs build reader tokens next → AllAlike R build build' next more more') :
    AllAlike R build build' reader (tokens ++ more) (tokens' ++ more') := by
  induction h with
  | nil => exact hmore _ .nil
  | cons htoken _ ih =>
      exact .cons htoken fun between hgoes => ih between hgoes fun next hruns =>
        hmore next (.cons hgoes hruns)

end Reader

end ServerPack.Json
