import ServerPack.Proofs.Json.WrittenValues

/-!
How often a string comes out of a text. Each step of the reader brings in the string of its token at
most, and that only where it takes a value (`uses_le_of_goes`, `uses_le_of_not_takesValue`). So a
string that is written once in a text is used once at most in the value that is read, and if it is
used, the reader takes a value where it is written (`uses_of_written_once`); what is used is written
somewhere (`exists_piece_of_uses`). In the members of an object different keys have strings of their
own (`uses_add_uses_le`).
-/

namespace ServerPack.Json

open Scanner (between decoded?)
open Reader (Goes Runs)

mutual

/-- How often a text is among the strings of a value. -/
def uses (text : Text) : Json → Nat
  | .null | .bool _ | .number _ => 0
  | .string other => if other = text then 1 else 0
  | .array items => usesIn text items
  | .object members => usesAmong text members

/-- How often it is among the strings of elements. -/
def usesIn (text : Text) : List Json → Nat
  | [] => 0
  | item :: rest => uses text item + usesIn text rest

/-- How often it is among the strings of members. -/
def usesAmong (text : Text) : List (Text × Json) → Nat
  | [] => 0
  | (_, value) :: rest => uses text value + usesAmong text rest

end

variable {text : Text}

theorem usesIn_append (items more : List Json) :
    usesIn text (items ++ more) = usesIn text items + usesIn text more := by
  induction items with
  | nil => exact (Nat.zero_add _).symm
  | cons item rest ih => rw [List.cons_append, usesIn, usesIn, ih, Nat.add_assoc]

theorem usesIn_reverse (items : List Json) : usesIn text items.reverse = usesIn text items := by
  induction items with
  | nil => rfl
  | cons item rest ih => rw [List.reverse_cons, usesIn_append, ih, usesIn, usesIn, usesIn,
    Nat.add_zero, Nat.add_comm]

theorem uses_le_usesIn {value : Json} {items : List Json} (h : value ∈ items) :
    uses text value ≤ usesIn text items := by
  obtain ⟨before, after, rfl⟩ := List.append_of_mem h
  rw [usesIn_append, usesIn]
  omega

/-- A new member brings in the strings of its value. -/
theorem usesAmong_insert_le (key : Text) (value : Json) (members : List (Text × Json)) :
    usesAmong text (Dictionary.insert key value members) ≤ uses text value + usesAmong text members := by
  induction members with
  | nil => exact Nat.le_refl _
  | cons first rest ih =>
      rw [Dictionary.insert]
      split
      · exact Nat.le_refl _
      · split
        · rw [usesAmong, usesAmong]
          omega
        · rw [usesAmong, usesAmong]
          omega

theorem uses_le_usesAmong {key : Text} {value : Json} {members : List (Text × Json)}
    (h : Dictionary.get? key members = some value) : uses text value ≤ usesAmong text members := by
  induction members with
  | nil => cases h
  | cons first rest ih =>
      obtain ⟨key', value'⟩ := first
      rw [Dictionary.get?] at h
      rw [usesAmong]
      split at h
      · cases h
        exact Nat.le_add_right _ _
      · exact Nat.le_trans (ih h) (Nat.le_add_left _ _)

/-- Members with different keys have their strings apart. -/
theorem uses_add_uses_le {key key' : Text} {value value' : Json} {members : List (Text × Json)}
    (hne : key ≠ key') (h : Dictionary.get? key members = some value)
    (h' : Dictionary.get? key' members = some value') :
    uses text value + uses text value' ≤ usesAmong text members := by
  induction members with
  | nil => cases h
  | cons first rest ih =>
      obtain ⟨first, found⟩ := first
      rw [Dictionary.get?] at h h'
      rw [usesAmong]
      split at h
      · next heq =>
        cases h
        rw [if_neg fun heq' => hne (heq.trans heq'.symm)] at h'
        exact Nat.add_le_add_left (uses_le_usesAmong h') _
      · split at h'
        · cases h'
          rw [Nat.add_comm]
          exact Nat.add_le_add_left (uses_le_usesAmong h) _
        · exact Nat.le_trans (ih h h') (Nat.le_add_left _ _)

/-! The reader. -/

/-- How often a text is among the strings in an open container. -/
def Frame.uses (text : Text) : Frame Json → Nat
  | .array items => usesIn text items
  | .object members _ => usesAmong text members

/-- How often it is among the strings in the containers that are open. -/
def Frame.usesIn (text : Text) : List (Frame Json) → Nat
  | [] => 0
  | frame :: rest => frame.uses text + usesIn text rest

/-- How often it is among the strings that a reader has read as values. -/
def Reader.uses (text : Text) : Reader Json → Nat
  | .reading stack _ => Frame.usesIn text stack
  | .done value => value.uses text

/-- How often it is among the strings of the value that a token is. -/
def Token.uses (text : Text) (token : Token) : Nat := (token.scalar? .json).elim 0 (Json.uses text)

namespace Reader

theorem uses_complete_le (value : Json) (stack : List (Frame Json)) :
    (complete value stack).uses text ≤ value.uses text + Frame.usesIn text stack := by
  rcases stack with _ | ⟨items | ⟨members, key⟩, stack⟩
  · exact Nat.le_add_right _ _
  · simp only [complete, uses, Frame.usesIn, Frame.uses, usesIn]
    omega
  · have hinsert := @usesAmong_insert_le text key value members
    simp only [complete, uses, Frame.usesIn, Frame.uses]
    omega

theorem uses_le_of_not_scalar {reader next : Reader Json} {token : Token} (h : Goes .json reader token next)
    (hscalar : ∀ stack expecting value, reader = .reading stack expecting → expecting.takesValue →
      token.scalar? .json ≠ some value) : next.uses text ≤ reader.uses text := by
  cases h with
  | scalar htakes hvalue => exact absurd hvalue (hscalar _ _ _ rfl htakes)
  | @closeArray items stack expecting hends =>
      refine Nat.le_trans (uses_complete_le _ _) (Nat.le_of_eq ?_)
      rw [uses, Frame.usesIn, Frame.uses, ← usesIn_reverse]
      rfl
  | @numberClose stack spelling =>
      refine Nat.le_trans (uses_complete_le _ _) ?_
      cases stack with
      | nil => exact Nat.le_refl _
      | cons frame stack =>
          change 0 + _ ≤ Frame.usesIn text (frame :: stack)
          rw [Frame.usesIn, List.tail_cons]
          omega
  | closeObject hends => exact uses_complete_le _ _
  | openArray htakes hroom => exact Nat.le_of_eq (Nat.zero_add _)
  | openObject htakes hroom => exact Nat.le_of_eq (Nat.zero_add _)
  | _ => exact Nat.le_refl _

/-- One step brings in the string of its token at most. -/
theorem uses_le_of_goes {reader next : Reader Json} {token : Token} (h : Goes .json reader token next) :
    next.uses text ≤ reader.uses text + token.uses text := by
  by_cases hscalar : ∃ stack expecting value, reader = .reading stack expecting ∧ expecting.takesValue ∧
      token.scalar? .json = some value
  · obtain ⟨stack, expecting, value, rfl, htakes, hvalue⟩ := hscalar
    obtain rfl := h.unique (.scalar htakes hvalue)
    refine Nat.le_trans (uses_complete_le value stack) (Nat.le_of_eq ?_)
    rw [Token.uses, hvalue, Nat.add_comm]
    rfl
  · refine Nat.le_trans (uses_le_of_not_scalar h fun stack expecting value heq htakes hvalue => ?_)
      (Nat.le_add_right _ _)
    exact hscalar ⟨stack, expecting, value, heq, htakes, hvalue⟩

/-- Where the reader takes no value no string comes in. -/
theorem uses_le_of_not_takesValue {reader next : Reader Json} {token : Token}
    (h : Goes .json reader token next) (hnot : ¬reader.TakesValue) : next.uses text ≤ reader.uses text :=
  uses_le_of_not_scalar h fun stack expecting _ heq htakes => absurd ⟨stack, expecting, heq, htakes⟩ hnot

theorem uses_asWritten_le (reader : Reader Json) (token : Token × Text)
    (h : token.1.isString → token.2 ≠ text) {next : Reader Json}
    (hgoes : Goes .json reader (reader.asWritten token) next) :
    next.uses text ≤ reader.uses text := by
  obtain ⟨token, source⟩ := token
  by_cases htakes : reader.TakesValue
  · refine Nat.le_trans (uses_le_of_goes hgoes) (Nat.le_of_eq ?_)
    obtain ⟨stack, expecting, rfl, hexpecting⟩ := htakes
    cases token with
    | string value =>
        rw [asWritten, if_pos hexpecting]
        exact congrArg (_ + ·) (if_neg (h rfl))
    | _ => rfl
  · exact uses_le_of_not_takesValue hgoes htakes

theorem runWritten_cons_eq_ok_iff {reader next : Reader Json} {token : Token × Text}
    {rest : List (Token × Text)} :
    reader.runWritten (token :: rest) = .ok next ↔
      ∃ between, Goes .json reader (reader.asWritten token) between ∧
      between.runWritten rest = .ok next := by
  rw [runWritten, List.foldlM_cons]
  cases hstep : reader.step .json ⟨reader.asWritten token, 0, 0⟩ with
  | error fault =>
      refine ⟨fun h => (by cases h), ?_⟩
      rintro ⟨between, hgoes, -⟩
      have heq := hstep.symm.trans (step_eq_ok_iff.2 hgoes)
      cases heq
  | ok between =>
      refine ⟨fun h => ⟨between, step_eq_ok_iff.1 hstep, h⟩, ?_⟩
      rintro ⟨between', hgoes, h⟩
      obtain rfl := hgoes.unique (step_eq_ok_iff.1 hstep)
      exact h

theorem runWritten_append {reader between : Reader Json} {tokens : List (Token × Text)}
    (h : reader.runWritten tokens = .ok between) (more : List (Token × Text)) :
    reader.runWritten (tokens ++ more) = between.runWritten more := by
  rw [runWritten, List.foldlM_append]
  exact congrArg (· >>= fun reader => runWritten reader more) h

/-- Tokens among which a string is not written do not bring it in. -/
theorem uses_runWritten_le {reader next : Reader Json} {tokens : List (Token × Text)}
    (h : reader.runWritten tokens = .ok next) (htokens : ∀ token ∈ tokens, token.1.isString →
      token.2 ≠ text) :
    next.uses text ≤ reader.uses text := by
  induction tokens generalizing reader with
  | nil =>
      cases h
      exact Nat.le_refl _
  | cons token rest ih =>
      obtain ⟨htoken, hrest⟩ := List.forall_mem_cons.1 htokens
      obtain ⟨between, hgoes, h⟩ := runWritten_cons_eq_ok_iff.1 h
      exact Nat.le_trans (ih h hrest) (uses_asWritten_le reader token htoken hgoes)

end Reader

/-! Texts of pieces. -/

/-- The strings in a text of pieces are those of the pieces. -/
theorem source_mem_of_mem_written {pieces : List Piece} {tail : Text}
    (hproper : ∀ piece ∈ pieces, piece.Proper) (htail : '"' ∉ tail)
    (hstray : .stray ∉ between.scan (weave pieces tail)) {token : Token × Text}
    (h : token ∈ between.written [] (weave pieces tail)) (hstring : token.1.isString) :
    token.2 ∈ pieces.map Piece.source := by
  have hlead : ∀ {tokens : List Token}, (∀ token ∈ tokens, token.isString = false) →
      token ∉ tokens.map fun token => (token, []) := by
    rintro tokens hnot hmem
    obtain ⟨other, hother, rfl⟩ := List.mem_map.1 hmem
    exact absurd hstring (by rw [hnot other hother]; simp)
  induction pieces with
  | nil =>
      obtain ⟨hnot, hwritten⟩ := written_tail htail hstray
      rw [weave, hwritten] at h
      exact absurd h (hlead hnot)
  | cons piece pieces ih =>
      obtain ⟨hpiece, hpieces⟩ := List.forall_mem_cons.1 hproper
      obtain ⟨meant, hmeant⟩ := Option.isSome_iff_exists.1 hpiece.source
      have hquoted : .stray ∉ (between.feed (piece.lead ++ ['"'])).1 :=
        not_stray_lead fun hmem => hstray (List.mem_append_left _ hmem)
      obtain ⟨hnot, hwritten⟩ := written_piece hpiece.quote hmeant hquoted (weave pieces tail)
      rw [weave, Scanner.scan, feed_piece rfl hpiece.quote hmeant hquoted, List.append_assoc,
        List.mem_append, not_or, List.cons_append, List.mem_cons, not_or] at hstray
      rw [weave, hwritten, List.mem_append, List.mem_cons] at h
      rcases h with hmem | rfl | hmem
      · exact absurd hmem (hlead hnot)
      · exact List.mem_cons_self
      · exact List.mem_cons_of_mem _ (ih hpieces hstray.2.2 hmem)

theorem runWritten_of_readWritten? {text : Text} {value : Json} (h : readWritten? text = some value) :
    Reader.runWritten (.reading [] .value) (between.written [] text) = .ok (.done value) := by
  rw [readWritten?] at h
  split at h
  · next hdone => rw [hdone, Option.some.inj h]
  · cases h

/-- What is used in the value is written somewhere. -/
theorem exists_piece_of_uses {pieces : List Piece} {tail : Text} (hproper : ∀ piece ∈ pieces, piece.Proper)
    (htail : '"' ∉ tail) (hstray : .stray ∉ between.scan (weave pieces tail)) {written : Json}
    (hwritten : readWritten? (weave pieces tail) = some written) (h : 0 < written.uses text) :
    ∃ piece ∈ pieces, piece.source = text := by
  refine Classical.byContradiction fun hnone => Nat.not_succ_le_zero _ (Nat.le_trans h ?_)
  refine Reader.uses_runWritten_le (runWritten_of_readWritten? hwritten)
    fun token hmem hstring heq => hnone ?_
  obtain ⟨piece, hpiece, hsource⟩ := List.mem_map.1
    (source_mem_of_mem_written hproper htail hstray hmem hstring)
  exact ⟨piece, hpiece, hsource.trans heq⟩

/-- Up to the string of a piece, a reader that takes strings as they are written stays abreast. -/
theorem exists_abreast_of_weave {before : List Piece} {piece : Piece}
    (hbefore : ∀ piece ∈ before, piece.Proper) (hpiece : piece.Proper)
    {reader written spliced next : Reader Json} (habreast : reader.Abreast .string written spliced)
    (hruns : Runs .json reader (between.feed (weave before (piece.lead ++ ['"']))).1 next) :
    ∃ tokens written' spliced', next.Abreast .string written' spliced' ∧
    written.runWritten tokens = .ok written' ∧
      (∀ token ∈ tokens, token.1.isString → token.2 ∈ before.map Piece.source) ∧
      ∀ meant, decoded? piece.source = some meant → ∀ rest, between.written []
        (weave before (piece.lead ++ '"' :: (piece.source ++ '"' :: rest))) =
          tokens ++ (.string meant, piece.source) :: between.written [] rest := by
  have hsilent : ∀ {tokens : List Token} {token : Token × Text},
    (∀ token ∈ tokens, token.isString = false) →
      token ∈ tokens.map (fun token => (token, [])) → token.1.isString = false := by
    rintro tokens token hnot hmem
    obtain ⟨other, hother, rfl⟩ := List.mem_map.1 hmem
    exact hnot other hother
  induction before generalizing reader written spliced with
  | nil =>
      obtain ⟨meant, hmeant⟩ := Option.isSome_iff_exists.1 hpiece.source
      obtain ⟨hnot, -⟩ := written_piece hpiece.quote hmeant hruns.not_stray []
      obtain ⟨written', spliced', habreast', hrun, -⟩ := habreast.runs_of_not_string hnot hruns
      have hend := hrun []
      rw [List.append_nil] at hend
      refine ⟨_, written', spliced', habreast', hend, fun token hmem hstring => ?_, fun meant hmeant rest =>
        (written_piece hpiece.quote hmeant hruns.not_stray rest).2⟩
      exact absurd hstring (by rw [hsilent hnot hmem]; simp)
  | cons first before ih =>
      obtain ⟨hfirst, hbefore⟩ := List.forall_mem_cons.1 hbefore
      obtain ⟨meant, hmeant⟩ := Option.isSome_iff_exists.1 hfirst.source
      have hlead : .stray ∉ (between.feed (first.lead ++ ['"'])).1 := not_stray_lead hruns.not_stray
      have hwritten := fun rest => (written_piece hfirst.quote hmeant hlead rest).2
      obtain ⟨hnot, -⟩ := written_piece hfirst.quote hmeant hlead []
      rw [weave, feed_piece rfl hfirst.quote hmeant hlead] at hruns
      obtain ⟨opened, hopened, hruns⟩ := Reader.runs_append_iff.1 hruns
      obtain ⟨behind, hgoes, hrest⟩ := Reader.runs_cons_iff.1 hruns
      obtain ⟨writtenOpened, splicedOpened, habreastOpened, hrunOpened, -⟩ :=
        habreast.runs_of_not_string hnot hopened
      obtain ⟨writtenBehind, splicedBehind, habreastBehind, hgoesWritten⟩ : ∃ written' spliced',
          behind.Abreast .string written' spliced' ∧
            Goes .json writtenOpened (writtenOpened.asWritten (.string meant, first.source)) written' := by
        by_cases hvalue : opened.TakesValue
        · obtain ⟨written', spliced', habreast', hgoes', -⟩ :=
            @Reader.Abreast.goes_of_value _ _ _ _ _ habreastOpened hvalue _ _ hmeant
              (.string first.source) rfl hgoes
          exact ⟨written', spliced', habreast', hgoes'⟩
        · obtain ⟨written', spliced', habreast', hgoes', -⟩ :=
            habreastOpened.goes_of_not_value hvalue first.source hgoes
          exact ⟨written', spliced', habreast', hgoes'⟩
      obtain ⟨tokens, written', spliced', habreast', hrun, hstrings, hrest⟩ :=
        ih hbefore habreastBehind hrest
      refine ⟨(between.feed (first.lead ++ ['"'])).1.map (fun token => (token, [])) ++
        (.string meant, first.source) :: tokens, written', spliced', habreast', ?_,
          fun token hmem hstring => ?_,
        fun meant' hmeant' rest => ?_⟩
      · rw [hrunOpened, Reader.runWritten_cons hgoesWritten, hrun]
      · rcases List.mem_append.1 hmem with hmem | hmem
        · exact absurd hstring (by rw [hsilent hnot hmem]; simp)
        · rcases List.mem_cons.1 hmem with rfl | hmem
          · exact List.mem_cons_self
          · exact List.mem_cons_of_mem _ (hstrings token hmem hstring)
      · rw [weave, hwritten, hrest meant' hmeant', List.append_assoc]
        rfl

/-- Where a string is written that is written nowhere else: the readers that have come there have
not used it, and behind it it is not used any more. -/
theorem exists_goes_of_written_once {before after : List Piece} {piece : Piece} {tail : Text}
    (hproper : ∀ other ∈ before ++ piece :: after, other.Proper) (htail : '"' ∉ tail) {value written : Json}
    (hread : read (weave (before ++ piece :: after) tail) = .ok value)
    (hwritten : readWritten? (weave (before ++ piece :: after) tail) = some written)
    (hothers : ∀ other ∈ before ++ after, other.source ≠ piece.source) :
    ∃ meant next reader behind, Runs .json (.reading [] .value)
      (between.feed (weave before (piece.lead ++ ['"']))).1 next ∧
      Reader.Related (SameWith .string decodedString) .json .json next reader ∧
      Goes .json reader (reader.asWritten (.string meant, piece.source)) behind ∧
      reader.uses piece.source ≤ 0 ∧ written.uses piece.source ≤ behind.uses piece.source := by
  obtain ⟨hbefore, hpieces⟩ := List.forall_mem_append.1 hproper
  obtain ⟨hpiece, hafter⟩ := List.forall_mem_cons.1 hpieces
  obtain ⟨meant, hmeant⟩ := Option.isSome_iff_exists.1 hpiece.source
  have hweave := weave_weave before piece after tail
  have hruns : Runs .json (.reading [] .value)
      (between.scan (weave (before ++ piece :: after) tail)) (.done value) :=
    read_eq_ok_iff.1 hread
  have hfront : .stray ∉ (between.feed (weave before (piece.lead ++ ['"']))).1 := by
    intro hmem
    refine hruns.not_stray (List.mem_append_left _ ?_)
    rw [hweave, Scanner.feed_append]
    exact List.mem_append_left _ hmem
  rw [hweave, Scanner.scan, Scanner.feed_append, feed_weave_lead rfl hbefore hpiece.quote hfront,
    Scanner.feed_string hmeant, List.append_assoc] at hruns
  obtain ⟨next, hnext, hruns⟩ := Reader.runs_append_iff.1 hruns
  obtain ⟨_, -, hrest⟩ := Reader.runs_cons_iff.1 hruns
  obtain ⟨tokens, reader, -, ⟨hrelated, -⟩, hrun, hstrings, hsplit⟩ :=
    exists_abreast_of_weave hbefore hpiece
    (⟨.reading .nil (by simp), .reading .nil (by simp)⟩ : Reader.Abreast .string _
      (.reading [] .value) _) hnext
  -- The tokens as they are written: those in front, the string, and those behind.
  have hread' := runWritten_of_readWritten? hwritten
  have htext : weave (before ++ piece :: after) tail =
      weave before (piece.lead ++ '"' :: (piece.source ++ '"' :: weave after tail)) := by
    rw [hweave, ← weave_append, List.append_assoc]
    rfl
  rw [htext, hsplit meant hmeant, Reader.runWritten_append hrun] at hread'
  obtain ⟨behind, hgoes, hdone⟩ := Reader.runWritten_cons_eq_ok_iff.1 hread'
  refine ⟨meant, next, reader, behind, hnext, hrelated, hgoes, ?_, ?_⟩
  · refine Reader.uses_runWritten_le hrun fun token hmem hstring heq => ?_
    obtain ⟨other, hother, hsource⟩ := List.mem_map.1 (hstrings token hmem hstring)
    exact hothers other (List.mem_append_left _ hother) (hsource.trans heq)
  · refine Reader.uses_runWritten_le hdone fun token hmem hstring heq => ?_
    obtain ⟨other, hother, hsource⟩ :=
      List.mem_map.1 (source_mem_of_mem_written hafter htail hrest.not_stray hmem hstring)
    exact hothers other (List.mem_append_right _ hother) (hsource.trans heq)

/-- A string that is written in one place alone is used once at most, and if it is, the reader takes
a value there. -/
theorem uses_of_written_once {before after : List Piece} {piece : Piece} {tail : Text}
    (hproper : ∀ other ∈ before ++ piece :: after, other.Proper) (htail : '"' ∉ tail) {value written : Json}
    (hread : read (weave (before ++ piece :: after) tail) = .ok value)
    (hwritten : readWritten? (weave (before ++ piece :: after) tail) = some written)
    (hothers : ∀ other ∈ before ++ after, other.source ≠ piece.source) :
    written.uses piece.source ≤ 1 ∧ (0 < written.uses piece.source → ∀ next,
      Runs .json (.reading [] .value) (between.feed (weave before (piece.lead ++ ['"']))).1 next →
      next.TakesValue) := by
  obtain ⟨meant, next, reader, behind, hnext, hrelated, hgoes, hbefore, hafter⟩ :=
    exists_goes_of_written_once hproper htail hread hwritten hothers
  constructor
  · have hstep := @Reader.uses_le_of_goes piece.source _ _ _ hgoes
    have htoken : (reader.asWritten (.string meant, piece.source)).uses piece.source ≤ 1 := by
      have hone : ∀ text : Text, (Token.string text).uses piece.source ≤ 1 := by
        intro text
        change (if text = piece.source then 1 else 0) ≤ 1
        split <;> simp
      cases reader <;> exact hone _
    omega
  · intro hpos next' hnext'
    obtain rfl := hnext.unique hnext'
    refine Classical.byContradiction fun hnot => ?_
    have hstep := @Reader.uses_le_of_not_takesValue piece.source _ _ _ hgoes ?_
    · omega
    · rintro ⟨stack, expecting, rfl, htakes⟩
      cases hrelated
      exact hnot ⟨_, _, rfl, htakes⟩

end ServerPack.Json
