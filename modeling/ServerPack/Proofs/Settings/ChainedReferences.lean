import ServerPack.Proofs.Placeholder.FramedString
import ServerPack.Proofs.Placeholder.Occurrences
import ServerPack.Proofs.Settings.SelfReferences
import ServerPack.Proofs.Settings.StringBorders

/-!
Settings in which a string that is a value refers to another one as a whole. Up to the turn of the
path to which it refers the reference stays (`Framed.fill_kept`); then the other string takes its
place (`Framed.replaceIn_self`), and with it come the references that stand in this. They stay if no
path that is larger stands among them; but a path that is larger has its turn later, and then the
string that has just been put in is searched again (`Settings.expand_of_chained`). So whether a
reference that a value brings in stays depends on the names of the paths
(`Settings.expand_of_chained_not_literal`).
-/

namespace ServerPack

open Json.Scanner (between)

theorem fill_append (resolved more : List Resolved) (body : Text) :
    fill (resolved ++ more) body = fill more (fill resolved body) :=
  List.foldl_append

namespace Framed

variable {front middle rest path : Text} {entry : Resolved} {resolved : List Resolved}

theorem clearOfQuotes_of_not_infix (hpath : '"' ∉ path)
    (h : ¬Placeholder.literal ⟨path, .text⟩ <:+: middle) (rest : Text) :
    ClearOfQuotes path middle rest where
  begins hbegins := by
    have hliteral : Placeholder.literal ⟨path, .text⟩ <+: middle ++ '"' :: rest := by
      rw [Form.core, List.append_assoc] at hbegins
      exact (List.prefix_append ..).trans hbegins
    exact h (Json.prefix_of_prefix_quote hliteral (Form.quote_not_mem_literal hpath)).isInfix
  ends hends := by
    have hcore : Placeholder.literal ⟨path, .text⟩ <:+: '"' :: Form.core path :=
      ⟨['"'], "(number)".toList, rfl⟩
    exact h (hcore.trans hends.isInfix)

/-- A string that is a whole text form is no number form. -/
theorem clearOfQuotes_self (path rest : Text) :
    ClearOfQuotes path (Placeholder.literal ⟨path, .text⟩) rest where
  begins hbegins := by
    rw [Form.core, List.append_assoc, List.prefix_append_right_inj] at hbegins
    have hmark : "(number)".toList ++ ['"'] = '(' :: "number)\"".toList := by decide
    rw [hmark] at hbegins
    exact absurd (List.cons_prefix_cons.1 hbegins).1 (by decide)
  ends hends := by
    have hlength := hends.length_le
    rw [Form.core, List.length_cons, List.length_append] at hlength
    omega

/-- Where there is no text form of a path there is no form of it. -/
theorem not_infix_literal (h : ¬Placeholder.literal ⟨path, .text⟩ <:+: middle) (form : Form) :
    ¬Placeholder.literal ⟨path, form⟩ <:+: middle := by
  cases form with
  | text => exact h
  | number =>
      have hnumber : Placeholder.literal ⟨path, .text⟩ <:+: Placeholder.literal ⟨path, .number⟩ :=
        ⟨['"'], "(number)\"".toList, (Form.literal_number path).symm⟩
      exact fun hinfix => h (hnumber.trans hinfix)

/-- A string in which a path does not stand is left as it is when this path is replaced around
it. -/
theorem replaceIn_kept (h : Framed front rest) (hpath : '"' ∉ entry.path)
    (hmiddle : ¬Placeholder.literal ⟨entry.path, .text⟩ <:+: middle) :
    entry.replaceIn (front ++ '"' :: (middle ++ '"' :: rest)) =
        entry.replaceIn front ++ '"' :: (middle ++ '"' :: entry.replaceIn rest) ∧
      Framed (entry.replaceIn front) (entry.replaceIn rest) := by
  obtain ⟨path, forms, value⟩ := entry
  dsimp only at hpath hmiddle
  simp only [Resolved.replaceIn]
  induction forms generalizing front rest with
  | nil => exact ⟨rfl, h⟩
  | cons form forms ih =>
      have hsame : Text.replaceAll (Placeholder.literal ⟨path, form⟩) value middle = middle :=
        Text.replaceAll_eq_self value (not_infix_literal hmiddle form)
      simp only [List.foldl_cons]
      rw [h.replaceAll hpath (fun _ => clearOfQuotes_of_not_infix hpath hmiddle rest) value, hsame]
      exact ih (h.next path value form)

/-- Text forms are replaced in a string and around it. -/
theorem replaceIn_text (h : Framed front rest) (hpath : '"' ∉ entry.path) (hforms : .number ∉ entry.forms) :
    entry.replaceIn (front ++ '"' :: (middle ++ '"' :: rest)) =
        entry.replaceIn front ++ '"' :: (entry.replaceIn middle ++ '"' :: entry.replaceIn rest) ∧
      Framed (entry.replaceIn front) (entry.replaceIn rest) := by
  obtain ⟨path, forms, value⟩ := entry
  dsimp only at hpath hforms
  simp only [Resolved.replaceIn]
  induction forms generalizing front middle rest with
  | nil => exact ⟨rfl, h⟩
  | cons form forms ih =>
      obtain ⟨hform, hrest⟩ := not_or.1 (mt List.mem_cons.2 hforms)
      simp only [List.foldl_cons]
      rw [h.replaceAll hpath (fun heq => absurd heq.symm hform) value]
      exact ih (h.next path value form) hrest

/-- A string that is a whole text form becomes the value of its path. -/
theorem replaceIn_self (h : Framed front rest) (hpath : '"' ∉ entry.path) {occurs : Form → Bool}
    (hforms : entry.forms = [.number, .text].filter occurs) (htext : .text ∈ entry.forms) :
    entry.replaceIn (front ++ '"' :: (Placeholder.literal ⟨entry.path, .text⟩ ++ '"' :: rest)) =
        entry.replaceIn front ++ '"' :: (entry.value ++ '"' :: entry.replaceIn rest) ∧
      Framed (entry.replaceIn front) (entry.replaceIn rest) := by
  obtain ⟨path, forms, value⟩ := entry
  dsimp only at hpath hforms htext ⊢
  have hvalue : Text.replaceAll (Placeholder.literal ⟨path, .text⟩) value
      (Placeholder.literal ⟨path, .text⟩) = value := by
    have happend := Text.replaceAll_pattern_append value (Form.literal_ne_nil ⟨path, .text⟩) []
    rw [List.append_nil] at happend
    exact happend.trans (List.append_nil value)
  have hsame : Text.replaceAll (Placeholder.literal ⟨path, .number⟩) value
    (Placeholder.literal ⟨path, .text⟩) = Placeholder.literal ⟨path, .text⟩ := by
    apply Text.replaceAll_eq_self
    intro hinfix
    apply Form.quote_not_mem_literal hpath
    apply hinfix.subset
    rw [Form.literal_number]
    exact List.mem_cons_self
  have hoccurs : occurs .text = true := (List.mem_filter.1 (hforms ▸ htext)).2
  have hplain : ∀ {middle rest}, Form.text = .number → ClearOfQuotes path middle rest := nofun
  simp only [Resolved.replaceIn]
  cases hnumber : occurs .number with
  | false =>
      obtain rfl : forms = [.text] := by rw [hforms]; simp [hnumber, hoccurs]
      simp only [List.foldl_cons, List.foldl_nil]
      rw [h.replaceAll hpath hplain value, hvalue]
      exact ⟨rfl, h.next path value .text⟩
  | true =>
      obtain rfl : forms = [.number, .text] := by rw [hforms]; simp [hnumber, hoccurs]
      simp only [List.foldl_cons, List.foldl_nil]
      rw [h.replaceAll hpath (fun _ => clearOfQuotes_self path rest) value, hsame,
        (h.next path value .number).replaceAll hpath hplain value, hvalue]
      exact ⟨rfl, (h.next path value .number).next path value .text⟩

/-- A string in which none of the paths stands is left as it is when they are replaced around it. -/
theorem fill_kept (h : Framed front rest) (hpaths : ∀ entry ∈ resolved, '"' ∉ entry.path)
    (hmiddle : ∀ entry ∈ resolved, ¬Placeholder.literal ⟨entry.path, .text⟩ <:+: middle) :
    fill resolved (front ++ '"' :: (middle ++ '"' :: rest)) =
        fill resolved front ++ '"' :: (middle ++ '"' :: fill resolved rest) ∧
      Framed (fill resolved front) (fill resolved rest) := by
  induction resolved generalizing front rest with
  | nil => exact ⟨rfl, h⟩
  | cons entry resolved ih =>
      obtain ⟨hpath, hpaths⟩ := List.forall_mem_cons.1 hpaths
      obtain ⟨hentry, hmiddle⟩ := List.forall_mem_cons.1 hmiddle
      obtain ⟨heq, hframed⟩ := h.replaceIn_kept hpath hentry
      rw [fill_cons, fill_cons, fill_cons, heq]
      exact ih hframed hpaths hmiddle

/-- Paths that are found in the text form only are replaced in a string and around it. -/
theorem fill_text (h : Framed front rest) (hpaths : ∀ entry ∈ resolved, '"' ∉ entry.path)
    (hforms : ∀ entry ∈ resolved, .number ∉ entry.forms) :
    fill resolved (front ++ '"' :: (middle ++ '"' :: rest)) =
      fill resolved front ++ '"' :: (fill resolved middle ++ '"' :: fill resolved rest) := by
  induction resolved generalizing front middle rest with
  | nil => rfl
  | cons entry resolved ih =>
      obtain ⟨hpath, hpaths⟩ := List.forall_mem_cons.1 hpaths
      obtain ⟨hentry, hforms⟩ := List.forall_mem_cons.1 hforms
      obtain ⟨heq, hframed⟩ := h.replaceIn_text hpath hentry
      rw [fill_cons, fill_cons, fill_cons, fill_cons, heq]
      exact ih hframed hpaths hforms

/-- A string that is a whole text form, when all paths have had their turns: the value of its path,
in which only the later paths can have been replaced. -/
theorem fill_chained {earlier later : List Resolved} (h : Framed front rest)
    (hpaths : ∀ other ∈ earlier ++ entry :: later, '"' ∉ other.path) {occurs : Form → Bool}
    (hforms : entry.forms = [.number, .text].filter occurs) (htext : .text ∈ entry.forms)
    (hearlier : ∀ other ∈ earlier, ¬Placeholder.literal ⟨other.path, .text⟩ <:+: Placeholder.literal
      ⟨entry.path, .text⟩) :
    ((∀ other ∈ later, ¬Placeholder.literal ⟨other.path, .text⟩ <:+: entry.value) →
      fill (earlier ++ entry :: later)
        (front ++ '"' :: (Placeholder.literal ⟨entry.path, .text⟩ ++ '"' :: rest)) =
        fill (earlier ++ entry :: later) front ++ '"' ::
        (entry.value ++ '"' :: fill (earlier ++ entry :: later) rest)) ∧
    ((∀ other ∈ later, .number ∉ other.forms) →
      fill (earlier ++ entry :: later)
        (front ++ '"' :: (Placeholder.literal ⟨entry.path, .text⟩ ++ '"' :: rest)) =
        fill (earlier ++ entry :: later) front ++
          '"' :: (fill later entry.value ++ '"' :: fill (earlier ++ entry :: later) rest)) := by
  obtain ⟨hearlierPaths, hbehind⟩ := List.forall_mem_append.1 hpaths
  obtain ⟨hpath, hlaterPaths⟩ := List.forall_mem_cons.1 hbehind
  -- up to the turn of the path the reference stays, then the value takes its place
  obtain ⟨hkept, hframed⟩ := h.fill_kept hearlierPaths hearlier
  obtain ⟨hput, hframed⟩ := hframed.replaceIn_self hpath hforms htext
  have hfill : ∀ body, fill (earlier ++ entry :: later) body = fill later
      (entry.replaceIn (fill earlier body)) :=
    fun body => by rw [fill_append, fill_cons]
  rw [hfill, hfill, hfill, hkept, hput]
  exact ⟨fun hnone => (hframed.fill_kept hlaterPaths hnone).1, hframed.fill_text hlaterPaths⟩

end Framed

/-! References that are whole strings. -/

namespace Form

variable {stretch path lead : Text}

/-- Behind a quote that belongs to no path the opening of a text form is the first one. -/
theorem opensIn_behind_quote (hne : path ≠ [])
    (hstretch : stretch = lead ++ '"' :: (Form.text.opening ++ path))
    (hquotes : ∀ before path, Form.text.OpensIn stretch before path → '"' ∉ path) :
    Form.text.OpensIn stretch (lead ++ ['"']) path := by
  have heq : stretch = lead ++ ['"'] ++ Form.text.opening ++ path := by
    rw [hstretch, List.append_assoc, List.append_assoc]
    rfl
  refine ⟨heq, hne, fun {other rest} hother => Nat.le_of_not_lt fun hshorter => ?_⟩
  have hlength := congrArg List.length (hstretch.symm.trans hother)
  simp only [List.length_append, List.length_cons, List.length_nil] at hlength hshorter
  have hrest : rest ≠ [] := by
    have hpositive := List.length_pos_iff.2 hne
    apply List.ne_nil_of_length_pos
    omega
  obtain ⟨before, found, hfound⟩ := exists_opensIn hother hrest
  have hle := hfound.first hother
  -- the first opening ends in front of the quote, which is then in its path
  apply hquotes before found hfound
  have hopening : '"' ∉ Form.text.opening := by decide
  have hsame := hfound.eq.symm.trans hstretch
  rcases List.append_eq_append_iff.1 hsame with ⟨more, hlead, hpath⟩ | ⟨more, hlead, hpath⟩
  · rw [hpath]
    simp
  · cases more with
    | nil =>
        rw [List.nil_append] at hpath
        rw [← hpath]
        exact List.mem_cons_self
    | cons c more =>
        obtain rfl := (List.cons_eq_cons.1 hpath).1
        exfalso
        rcases List.append_eq_append_iff.1 hlead with ⟨gap, -, hgap⟩ | ⟨gap, hbefore, hgap⟩
        · exact hopening (by simp [hgap])
        · have hnil : gap = [] := by
            rw [hbefore, List.length_append] at hle
            apply List.eq_nil_of_length_eq_zero
            omega
          rw [hnil, List.nil_append] at hgap
          exact hopening (hgap ▸ List.mem_cons_self)

end Form

namespace Placeholder

variable {raw front rest path : Text}

/-- A reference that is a whole string is found, where no path has a quote in it. -/
theorem text_mem_occurringIn_of_quoted (hne : path ≠ []) (hparen : ')' ∉ path)
    (hraw : raw = front ++ '"' :: (literal ⟨path, .text⟩ ++ '"' :: rest))
    (hquotes : ∀ path ∈ pathsIn raw, '"' ∉ path) : ⟨path, .text⟩ ∈ occurringIn raw := by
  have htail : ')' ∉ '"' :: (Form.text.opening ++ path) := by
    have hopening : ')' ∉ Form.text.opening := by decide
    simp [hopening, hparen]
  obtain ⟨k, last, hsplit⟩ := Text.exists_drop_split htail front ('"' :: rest)
  obtain ⟨next, more, hbehind⟩ : ∃ next more, Text.split ')' ('"' :: rest) = ('"' :: next) :: more := by
    obtain ⟨piece, pieces, hpieces⟩ := List.exists_cons_of_ne_nil (Text.split_ne_nil ')' rest)
    refine ⟨piece, pieces, ?_⟩
    rw [Text.split, if_neg (by decide), hpieces]
  have hbody : raw = (front ++ '"' :: (Form.text.opening ++ path)) ++ ')' :: ('"' :: rest) := by
    rw [hraw, literal, Form.closing_text]
    simp only [List.append_assoc, List.cons_append, List.nil_append]
  have hdrop : (Text.split ')' raw).drop k = (last ++ '"' :: (Form.text.opening ++ path)) ::
      ('"' :: next) :: more := by
    rw [hbody, hsplit, hbehind]
  -- the next stretch begins with a quote, so no number form is written in this one
  have hnumber : ∀ before path, ¬NumberWritten (Text.split ')' raw) k before path := by
    intro before path hwritten
    obtain ⟨stretch, rest', more', hdrop', -⟩ := hwritten.exists_eq
    have hmark := (List.cons_eq_cons.1 (List.cons_eq_cons.1 (hdrop.symm.trans hdrop')).2).1
    exact absurd (List.cons_eq_cons.1 hmark).1 (by decide)
  have hfound : ∀ before found, Form.text.OpensIn
    (last ++ '"' :: (Form.text.opening ++ path)) before found →
      ⟨found, .text⟩ ∈ occurringIn raw := fun before found hopens =>
    (text_mem_occurringIn_iff raw).2 ⟨k, before, ⟨_, before, _, hdrop, rfl, hopens, List.cons_ne_nil _ _⟩,
      fun before' path' hwritten => absurd hwritten (hnumber before' path')⟩
  exact hfound _ path (Form.opensIn_behind_quote hne rfl fun before found hopens =>
    hquotes found (mem_pathsIn.2 ⟨.text, hfound before found hopens⟩))

end Placeholder

namespace Settings

variable {raw text front rest path stored : Text} {document : Document} {resolved : List Resolved}

/-- What stands around a string that is a value and a whole reference. -/
theorem OpensValue.framed {value : Json} (h : OpensValue (front ++ ['"'])) (hquote : '"' ∉ path)
    (hread : Json.read (front ++ '"' :: (Placeholder.literal ⟨path, .text⟩ ++ '"' :: rest)) = .ok value) :
    Framed front rest := by
  have hstray := (Json.read_eq_ok_iff.1 hread).not_stray
  rw [Json.tokens, List.append_cons, Json.Scanner.scan, Json.Scanner.feed_append, List.append_assoc,
    List.mem_append, not_or] at hstray
  obtain ⟨hlead, hstring⟩ := hstray
  rw [h.feed hlead] at hstring
  have hfront : .stray ∉ (between.feed front).1 := by
    rw [Json.Scanner.feed_append] at hlead
    exact fun hmem => hlead (List.mem_append_left _ hmem)
  obtain ⟨hparen, hlast⟩ := h.last_ne hfront
  obtain ⟨hdollar, hhead⟩ := h.head_ne (Json.Scanner.isSome_decoded?_literal hquote hstring) hread
  exact ⟨hparen, hlast, hdollar, hhead⟩

/-- What is put in for a path of which the value is a string, unless that asks for a secret, is this
string. -/
theorem value_of_resolveIn {randomness left : RandomSource} {entry : Resolved}
    (h : document.resolveIn raw randomness = (.ok resolved, left)) (hentry : entry ∈ resolved)
    (hstored : document.get (qualified entry.path) = .ok (.string stored))
    (hsecret : stored ≠ secretRequest) :
    entry.value = stored := by
  obtain ⟨source, left', hvalue⟩ := Document.exists_valueFrom_of_mem h hentry
  have hfound : valueOf? (.string stored) = some (.text stored) := by rw [valueOf?, if_neg hsecret]
  rw [Document.valueFrom, Document.value_of_get hstored hfound] at hvalue
  exact (Except.ok.inj (congrArg Prod.fst hvalue)).symm

/-- The paths that have been resolved are in increasing order. -/
theorem increasing_of_resolveIn {randomness left : RandomSource}
    (h : document.resolveIn raw randomness = (.ok resolved, left)) : resolved.Pairwise fun a b =>
      a.path < b.path := by
  have hpaths : resolved.map Resolved.path = Placeholder.pathsIn raw := by
    have hentries := congrArg (List.map Prod.fst) (Document.paths_of_resolveFrom h)
    rw [List.map_map, List.map_map] at hentries
    exact hentries.trans (List.map_id _)
  have hincreasing := Placeholder.increasing_pathsIn raw
  rw [← hpaths, List.pairwise_map] at hincreasing
  exact hincreasing

/-- Of paths in increasing order those behind a path are the larger ones. -/
theorem filter_path_lt {earlier later : List Resolved} {entry : Resolved}
    (h : (earlier ++ entry :: later).Pairwise fun a b => a.path < b.path) :
    (earlier ++ entry :: later).filter (fun other => entry.path < other.path) = later := by
  obtain ⟨-, hbehind, hearlier⟩ := List.pairwise_append.1 h
  obtain ⟨hlater, -⟩ := List.pairwise_cons.1 hbehind
  have hnone : earlier.filter (fun other => entry.path < other.path) = [] := by
    refine List.filter_eq_nil_iff.2 fun other hother hlt => ?_
    have hless := hearlier other hother entry List.mem_cons_self
    exact Text.comparable.irrefl _ (Text.comparable.trans hless (of_decide_eq_true hlt))
  have hself : ¬(decide (entry.path < entry.path) = true) := by
    rw [decide_eq_true_iff]
    exact Text.comparable.irrefl _
  rw [List.filter_append, hnone, List.filter_cons, if_neg hself, List.nil_append, List.filter_eq_self]
  exact fun other hother => decide_eq_true (hlater other hother)

/-- A string that refers to another one as a whole becomes this string when its path has its turn,
and then the paths that are larger have theirs. If none of them stands in the string that has been
put in, this is there in the end as it was stored. If none of them is found in the number form, they
are replaced in it, and the references to smaller paths stay. -/
theorem expand_of_chained (hparse : parse raw = .ok document)
    (hraw : raw = front ++ '"' :: (Placeholder.literal ⟨path, .text⟩ ++ '"' :: rest))
    (hopens : OpensValue (front ++ ['"'])) (hne : path ≠ []) (hparen : ')' ∉ path)
      (hquotes : ∀ other ∈ Placeholder.pathsIn raw, '"' ∉ other)
    (hsmaller : ∀ other ∈ Placeholder.pathsIn raw, other < path →
      ¬Placeholder.literal ⟨other, .text⟩ <:+: Placeholder.literal ⟨path, .text⟩)
    (hstored : document.get (qualified path) = .ok (.string stored))
    (hsecret : stored ≠ secretRequest) (mode : WriteMode) (session : Session)
    (htext : ((expand (m := Action) mode (fun _ => pure ()) raw).outcome session).1 = .ok text) :
    ∃ resolved left, document.resolveIn raw session.randomness = (.ok resolved, left) ∧
      ((∀ other ∈ Placeholder.pathsIn raw, path < other → ¬Placeholder.literal ⟨other, .text⟩ <:+: stored) →
        text = fill resolved front ++ '"' :: (stored ++ '"' :: fill resolved rest)) ∧
      ((∀ other, path < other → ⟨other, .number⟩ ∉ Placeholder.occurringIn raw) →
        text = fill resolved front ++
          '"' :: (fill (resolved.filter fun entry => path < entry.path) stored ++
            '"' :: fill resolved rest)) := by
  obtain ⟨resolved, left, hresolved, rfl⟩ : ∃ resolved left,
      document.resolveIn raw session.randomness = (.ok resolved, left) ∧ text = fill resolved raw := by
    rw [outcome_expand_in_memory] at htext
    obtain ⟨document', resolved, hparse', hresolved, htext⟩ := exists_of_expandFrom (Prod.ext htext rfl)
    obtain rfl := Except.ok.inj (hparse.symm.trans hparse')
    exact ⟨resolved, _, hresolved, htext⟩
  have hfound := Placeholder.text_mem_occurringIn_of_quoted hne hparen hraw hquotes
  have hmem := Placeholder.mem_pathsIn.2 ⟨.text, hfound⟩
  obtain ⟨entry, hentry, rfl⟩ := (Document.mem_pathsIn_iff_of_resolveIn hresolved).1 hmem
  obtain ⟨earlier, later, hsplit⟩ := List.append_of_mem hentry
  have hincreasing := increasing_of_resolveIn hresolved
  have hpaths : ∀ other ∈ resolved, '"' ∉ other.path := fun other hother =>
    hquotes _ ((Document.mem_pathsIn_iff_of_resolveIn hresolved).2 ⟨other, hother, rfl⟩)
  have hvalue := value_of_resolveIn hresolved hentry hstored hsecret
  have hforms : entry.forms = [.number, .text].filter fun form =>
      ⟨entry.path, form⟩ ∈ Placeholder.occurringIn raw :=
    Document.forms_of_resolveIn hresolved hentry
  have htextForm : .text ∈ entry.forms := by
    rw [hforms]
    exact List.mem_filter.2 ⟨by decide, decide_eq_true hfound⟩
  obtain ⟨hread, -⟩ := parse_eq_ok_iff.1 hparse
  rw [hraw] at hread
  have hframed := hopens.framed (hpaths entry hentry) hread
  subst hsplit
  obtain ⟨-, hbehind, hbefore⟩ := List.pairwise_append.1 hincreasing
  obtain ⟨hafter, -⟩ := List.pairwise_cons.1 hbehind
  have hin : ∀ other ∈ earlier ++ entry :: later, other.path ∈ Placeholder.pathsIn raw :=
      fun other hother =>
    (Document.mem_pathsIn_iff_of_resolveIn hresolved).2 ⟨other, hother, rfl⟩
  have hlater : ∀ other ∈ later, other ∈ earlier ++ entry :: later := fun other hother =>
    List.mem_append_right _ (List.mem_cons_of_mem _ hother)
  obtain ⟨hkept, hreplaced⟩ := hframed.fill_chained hpaths hforms htextForm fun other hother =>
    hsmaller _ (hin other (List.mem_append_left _ hother)) (hbefore other hother entry List.mem_cons_self)
  rw [← hraw, hvalue] at hkept hreplaced
  refine ⟨_, left, hresolved, fun hnone => hkept fun other hother => ?_, fun htexts => ?_⟩
  · exact hnone _ (hin other (hlater other hother)) (hafter other hother)
  · rw [filter_path_lt hincreasing]
    apply hreplaced
    intro other hother hnumber
    rw [Document.forms_of_resolveIn hresolved (hlater other hother)] at hnumber
    exact htexts _ (hafter other hother) (of_decide_eq_true (List.mem_filter.1 hnumber).2)

/-- A lookup that shows a text has come to a string. -/
theorem get_of_text? {shown : Text} (h : (document.get path).toOption.bind Json.text? = some shown) :
    document.get path = .ok (.string shown) := by
  rcases hget : document.get path with failure | found <;> rw [hget] at h
  · cases h
  · cases found <;> cases h
    rfl

/-- Settings up to a string that refers to another one, which refers to a third. -/
def chainedFront : Text :=
  "\x7b\"placeholder\":\x7b\"data\":\x7b\"a\":\"$(mcp.b)\",\"b\":\"x\",\"c\":".toList

def chainedRaw : Text :=
  chainedFront ++ '"' :: (Placeholder.literal ⟨['a'], .text⟩ ++ '"' :: ['\x7d', '\x7d', '\x7d'])

/-- The string that refers to the other one becomes what the reference in this leads to. -/
theorem expand_of_chained_larger : ∃ text resolved,
    ((expand (m := Action) .once (fun _ => pure ()) chainedRaw).outcome
      (Build.sampleSession "")).1 = .ok text ∧
      text = fill resolved chainedFront ++ '"' ::
      (['x'] ++ '"' :: fill resolved ['\x7d', '\x7d', '\x7d']) := by
  have hparse : parse chainedRaw = .ok (settingsOf chainedRaw) := parse_eq_settingsOf (by decide +kernel)
  have hopens : OpensValue (chainedFront ++ ['"']) := by decide +kernel
  have hquotes : ∀ other ∈ Placeholder.pathsIn chainedRaw, '"' ∉ other := by decide +kernel
  have hsmaller : ∀ other ∈ Placeholder.pathsIn chainedRaw, ¬other < ['a'] := by decide +kernel
  have hstored : (settingsOf chainedRaw).get (qualified ['a']) = .ok
      (.string (Placeholder.literal ⟨['b'], .text⟩)) :=
    get_of_text? (by decide +kernel)
  have htexts : ∀ other ∈ Placeholder.occurringIn chainedRaw, other.form ≠ .number := by decide +kernel
  have hresolved : ((settingsOf chainedRaw).resolveIn chainedRaw (Build.sampleSession "").randomness).1 =
      .ok [⟨['a'], [.text], Placeholder.literal ⟨['b'], .text⟩⟩, ⟨['b'], [.text], ['x']⟩] := by
        decide +kernel
  obtain ⟨text, htext⟩ : ∃ text,
      ((expand (m := Action) .once (fun _ => pure ()) chainedRaw).outcome
          (Build.sampleSession "")).1 = .ok text := by
    rw [outcome_expand_in_memory, expandFrom, hparse]
    dsimp only
    rcases hleft : (settingsOf chainedRaw).resolveIn chainedRaw
      (Build.sampleSession "").randomness with ⟨_ | found, left⟩
    · rw [hleft] at hresolved
      cases hresolved
    · exact ⟨_, rfl⟩
  obtain ⟨resolved, left, hresolved', -, hlarger⟩ :=
    expand_of_chained hparse rfl hopens (by decide) (by decide) hquotes
    (fun other hother hlt => absurd hlt (hsmaller other hother)) hstored (by decide) .once _ htext
  refine ⟨text, resolved, htext, ?_⟩
  rw [hlarger fun other _ hnumber => htexts _ hnumber rfl]
  rw [hresolved'] at hresolved
  obtain rfl := Except.ok.inj hresolved
  have hlast : fill (([⟨['a'], [.text], Placeholder.literal ⟨['b'], .text⟩⟩,
    ⟨['b'], [.text], ['x']⟩] : List Resolved).filter
      fun entry => ['a'] < entry.path) (Placeholder.literal ⟨['b'], .text⟩) = ['x'] := by decide +kernel
  rw [hlast]

/-- These settings when they have been resolved against themselves. -/
def chainedExpanded : Text :=
  "\x7b\"placeholder\":\x7b\"data\":\x7b\"a\":\"x\",\"b\":\"x\",\"c\":\"x\"\x7d\x7d\x7d".toList

/-- The reference that comes with the other string does not stay as it was stored, for its path is
the larger one. -/
theorem expand_of_chained_not_literal : parse chainedRaw = .ok (settingsOf chainedRaw) ∧
    (settingsOf chainedRaw).get (qualified ['a']) = .ok (.string (Placeholder.literal ⟨['b'], .text⟩)) ∧
    (settingsOf chainedRaw).get (qualified ['c']) = .ok (.string (Placeholder.literal ⟨['a'], .text⟩)) ∧
    ((expand (m := Action) .once (fun _ => pure ()) chainedRaw).outcome (Build.sampleSession "")).1 =
      .ok chainedExpanded ∧
    parse chainedExpanded = .ok (settingsOf chainedExpanded) ∧
    (settingsOf chainedExpanded).get (qualified ['c']) = .ok (.string ['x']) ∧
    ['x'] ≠ Placeholder.literal ⟨['b'], .text⟩ :=
  ⟨parse_eq_settingsOf (by decide +kernel), get_of_text? (by decide +kernel),
    get_of_text? (by decide +kernel),
    by decide +kernel, parse_eq_settingsOf (by decide +kernel), get_of_text? (by decide +kernel), by decide⟩

end Settings

end ServerPack
