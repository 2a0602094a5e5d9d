import ServerPack.Proofs.Action
import ServerPack.Proofs.Placeholder.SeparatedSubstitution

/-!
Bodies that are put together from literals and references. If these keep apart
(`Part.WellSeparated`), the placeholders of the body are its references
(`Part.mem_occurringIn_body_iff`). Replacing path by path, in whatever order, then gives the body
with the value of its path in place of each reference (`Part.fill_body`), and in this no placeholder
is left (`Part.occurringIn_flatMap_filled`). So a run that finds and replaces the placeholders puts
in all values at once, and another one changes nothing (`Substitution.run_of_wellSeparated`). The
computations that give the values may keep a state of their own beside the session (`Returns`).
-/

namespace ServerPack

/-! Computations with a state of their own. -/

section Returning

variable {σ α β : Type}

/-- A computation succeeds with a value. It finds a state and a session and leaves others. -/
def Returns (action : StateT σ Action α) (start : σ × Session) (a : α) (after : σ × Session) : Prop :=
  (action.run start.1).perform start.2 = (.ok (a, after.1), after.2)

theorem returns_pure (a : α) (start : σ × Session) :
    Returns (pure a : StateT σ Action α) start a start := rfl

theorem Returns.bind {action : StateT σ Action α} {next : α → StateT σ Action β}
    {start between after : σ × Session} {a : α} {b : β} (h : Returns action start a between)
    (h' : Returns (next a) between b after) :
    Returns (action >>= next) start b after := by
  rw [Returns, StateT.run_bind, Action.perform_bind, h]
  exact h'

/-- Before it goes on a computation may write to the log. -/
theorem exists_returns_log_bind {level : Level} {message : String} {next : Unit → StateT σ Action β} {b : β}
    (h : ∀ start, ∃ after, Returns (next ()) start b after) (start : σ × Session) :
    ∃ after, Returns ((Action.log level message : StateT σ Action Unit) >>= next) start b after := by
  have hlog : Returns (monadLift (Action.log level message) : StateT σ Action Unit) start ()
      (start.1, { start.2 with log := start.2.log ++ [⟨level, message⟩] }) := rfl
  obtain ⟨after, hafter⟩ := h _
  exact ⟨after, hlog.bind hafter⟩

end Returning

namespace Substitution

variable {σ : Type} {resolve : Text → StateT σ Action Text} {persist : Text → StateT σ Action Unit}

/-- Paths that all have values are resolved, one after the other. -/
theorem exists_returns_resolveEntries {good : Text → Prop} (hnil : good [])
    (forms : Text → List Form) {paths : List Text} (hpaths : paths.Nodup)
    (hresolve : ∀ path ∈ paths, ∀ start, ∃ value after, Returns (resolve path) start value after ∧
      good value)
    (start : σ × Session) : ∃ values : Text → Text, (∀ path, good (values path)) ∧
      (∀ path ∈ paths, ∃ before after, Returns (resolve path) before (values path) after) ∧
      ∃ after, Returns ((paths.map fun path => (path, forms path)).mapM (resolveEntry resolve)) start
        (paths.map fun path => ⟨path, forms path, values path⟩) after := by
  induction paths generalizing start with
  | nil => exact ⟨fun _ => [], fun _ => hnil, nofun, start, returns_pure _ _⟩
  | cons path rest ih =>
      obtain ⟨hpath, hrest⟩ := List.nodup_cons.1 hpaths
      obtain ⟨hfirst, hothers⟩ := List.forall_mem_cons.1 hresolve
      obtain ⟨value, between, hvalue, hgood⟩ := hfirst start
      obtain ⟨values, hvalues, hgives, after, hafter⟩ := ih hrest hothers between
      have hsame : ∀ other ∈ rest, Function.update values path value other = values other :=
          fun other hother =>
        Function.update_of_ne (fun (heq : other = path) => hpath (heq ▸ hother)) _ _
      have hmap : (rest.map fun other => (⟨other, forms other,
        Function.update values path value other⟩ : Resolved)) =
          rest.map fun other => ⟨other, forms other, values other⟩ :=
        List.map_congr_left fun other hother => by rw [hsame other hother]
      refine ⟨Function.update values path value, fun other => ?_, ?_, after, ?_⟩
      · by_cases hother : other = path
        · rw [hother, Function.update_self]
          exact hgood
        · rw [Function.update_of_ne hother]
          exact hvalues other
      · refine List.forall_mem_cons.2 ⟨⟨start, between, ?_⟩, fun other hother => ?_⟩
        · rw [Function.update_self]
          exact hvalue
        · rw [hsame other hother]
          exact hgives other hother
      · rw [List.map_cons, List.mapM_cons, List.map_cons, Function.update_self, hmap]
        have hentry : Returns (resolveEntry resolve (path, forms path)) start
            ⟨path, forms path, value⟩ between :=
          hvalue.bind (returns_pure _ _)
        exact hentry.bind (hafter.bind (returns_pure _ _))

/-- When every body can be persisted, replacing path by path gives the filled body. -/
theorem exists_returns_replaceEach (hpersist : ∀ text start, ∃ after, Returns (persist text) start () after)
    (mode : WriteMode) (resolved : List Resolved) (body : Text) (start : σ × Session) :
    ∃ after, Returns (replaceEach mode persist resolved body) start (fill resolved body) after := by
  induction resolved generalizing body start with
  | nil => exact ⟨start, returns_pure _ _⟩
  | cons first rest ih =>
      rw [replaceEach]
      dsimp only
      refine exists_returns_log_bind (fun start => ?_) start
      split
      · obtain ⟨between, hbetween⟩ := hpersist (first.replaceIn body) start
        obtain ⟨after, hafter⟩ := ih (first.replaceIn body) between
        exact ⟨after, hbetween.bind hafter⟩
      · exact ih (first.replaceIn body) start

/-- A run gives the filled body. -/
theorem exists_returns_run (hpersist : ∀ text start, ∃ after, Returns (persist text) start () after)
    (mode : WriteMode) {placeholders : List Placeholder} {resolved : List Resolved}
    {start between : σ × Session}
    (hresolved : Returns (resolveAll resolve placeholders) start resolved between) (body : Text) :
    ∃ after, Returns (run mode resolve persist placeholders body) start (fill resolved body) after := by
  obtain ⟨replaced, hreplaced⟩ := exists_returns_replaceEach hpersist mode resolved body between
  obtain ⟨after, hafter⟩ := hpersist (fill resolved body) replaced
  by_cases hlast : mode = .once ∧ resolved ≠ []
  · refine ⟨after, hresolved.bind (hreplaced.bind ?_)⟩
    rw [if_pos hlast]
    exact hafter.bind (returns_pure _ _)
  · refine ⟨replaced, hresolved.bind (hreplaced.bind ?_)⟩
    rw [if_neg hlast]
    exact returns_pure _ _

/-- A run without placeholders does nothing. -/
theorem returns_run_nil (mode : WriteMode) (body : Text) (start : σ × Session) :
    Returns (run mode resolve persist [] body) start body start := by
  have hlast : ¬(mode = .once ∧ ([] : List Resolved) ≠ []) := fun h => h.2 rfl
  refine Returns.bind (returns_pure [] start) (Returns.bind (returns_pure body start) ?_)
  rw [if_neg hlast]
  exact returns_pure _ _

end Substitution

/-! Literals and references. -/

/-- A part of a body: a literal, or a reference to a path in one of the forms. -/
inductive Part where
  | literal (text : Text)
  | reference (placeholder : Placeholder)
  deriving DecidableEq

namespace Part

/-- How a part is written. -/
def text : Part → Text
  | .literal text => text
  | .reference placeholder => placeholder.literal

/-- The body that consists of parts. -/
def body (parts : List Part) : Text := parts.flatMap text

/-- A part with the value of its path in place of a reference. -/
def filled (values : Text → Text) : Part → Text
  | .literal text => text
  | .reference placeholder => values placeholder.path

/-- The characters and the reference of which a part consists. -/
def segments : Part → List Segment
  | .literal text => text.map .char
  | .reference placeholder => [.reference placeholder.form placeholder.path]

/-- Parts keep apart. Every literal is there, nothing is opened in it or by it and what follows, and
none that begins with a parenthesis follows a reference; every reference is to a path that can be
read off again. -/
inductive WellSeparated : List Part → Prop
  | nil : WellSeparated []
  | literal {text rest} (hne : text ≠ []) (hopening : ¬['$', '('] <:+: text) (hlast : ¬['$'] <:+ text)
      (hrest : WellSeparated rest) : WellSeparated (.literal text :: rest)
  | reference {placeholder rest} (hpath : Segment.IsPath placeholder.path)
      (hbehind : ∀ text more, rest = .literal text :: more → ¬['('] <+: text) (hrest : WellSeparated rest) :
      WellSeparated (.reference placeholder :: rest)

variable {parts : List Part} {placeholder : Placeholder} {values : Text → Text}

theorem render_segments (parts : List Part) : Segment.render (parts.flatMap segments) = body parts := by
  rw [Segment.render, List.flatMap_assoc]
  refine List.flatMap_congr fun part _ => ?_
  cases part with
  | literal text => exact Segment.render_map_char text
  | reference placeholder => exact List.append_nil _

theorem flatMap_fillWith_segments (values : Text → Text) (parts : List Part) :
    (parts.flatMap segments).flatMap (Segment.fillWith values) = parts.flatMap (filled values) := by
  rw [List.flatMap_assoc]
  refine List.flatMap_congr fun part _ => ?_
  cases part with
  | literal text => exact Segment.fillWith_map_char values text
  | reference placeholder => exact List.append_nil _

theorem reference_mem_segments_iff :
    .reference placeholder.form placeholder.path ∈ parts.flatMap segments ↔
    .reference placeholder ∈ parts := by
  rw [List.mem_flatMap]
  constructor
  · rintro ⟨text | other, hmem, hpart⟩
    · simp [segments] at hpart
    · obtain ⟨hform, hpath⟩ := Segment.reference.inj (List.mem_singleton.1 hpart)
      obtain rfl : placeholder = other := by
        cases placeholder
        cases other
        exact Placeholder.mk.injEq .. ▸ ⟨hpath, hform⟩
      exact hmem
  · exact fun hmem => ⟨_, hmem, List.mem_singleton.2 rfl⟩

theorem WellSeparated.isPath (h : WellSeparated parts) (hmem : .reference placeholder ∈ parts) :
    Segment.IsPath placeholder.path := by
  induction h with
  | nil => cases hmem
  | literal _ _ _ _ ih =>
      rcases List.mem_cons.1 hmem with heq | hmem
      · cases heq
      · exact ih hmem
  | reference hpath _ _ ih =>
      rcases List.mem_cons.1 hmem with heq | hmem
      · cases heq
        exact hpath
      · exact ih hmem

/-- Characters in which nothing is opened stay apart from what follows. -/
theorem separated_literal {text : Text} {rest : List Segment} (hopening : ¬['$', '('] <:+: text)
    (hlast : ¬['$'] <:+ text) (hrest : Segment.Separated rest) :
    Segment.Separated (text.map .char ++ rest) := by
  induction text with
  | nil => exact hrest
  | cons c text ih =>
      refine .char ?_ (ih (fun h => hopening (h.trans (List.suffix_cons c text).isInfix))
        fun h => hlast (h.trans (List.suffix_cons c text)))
      rintro rfl
      cases text with
      | nil => exact absurd (List.suffix_refl _) hlast
      | cons next text =>
          rintro rfl
          exact hopening ⟨[], text, rfl⟩

theorem WellSeparated.separated (h : WellSeparated parts) : Segment.Separated (parts.flatMap segments) := by
  induction h with
  | nil => exact .nil
  | literal _ hopening hlast _ ih => exact separated_literal hopening hlast ih
  | @reference placeholder rest hpath hbehind hrest ih =>
      refine .reference hpath ?_ ih
      cases hrest with
      | nil => trivial
      | @literal text more hne _ _ _ =>
          cases text with
          | nil => exact absurd rfl hne
          | cons c text =>
              rintro rfl
              exact hbehind _ more rfl ⟨text, rfl⟩
      | reference _ _ _ => trivial

/-- The placeholders of a body are its references. -/
theorem mem_occurringIn_body_iff (h : WellSeparated parts) :
    placeholder ∈ Placeholder.occurringIn (body parts) ↔ .reference placeholder ∈ parts := by
  rw [← render_segments, ← reference_mem_segments_iff]
  exact Segment.mem_occurringIn_render_iff h.separated

/-- The entries of resolved paths for a body. -/
def entries (values : Text → Text) (parts : List Part) : List Resolved :=
  (Placeholder.pathsIn (body parts)).map fun path =>
    ⟨path, Placeholder.formsIn (body parts) path, values path⟩

/-- In whatever order the paths are replaced, each reference becomes the value of its path. -/
theorem fill_body (h : WellSeparated parts) (hvalues : ∀ path, Segment.Inert (values path))
    {resolved : List Resolved} (hresolved : resolved.Perm (entries values parts)) :
    fill resolved (body parts) = parts.flatMap (filled values) := by
  rw [← render_segments, ← flatMap_fillWith_segments]
  refine Segment.fill_render h.separated (fun entry hentry => ?_) fun form path hmem => ?_
  · obtain ⟨path, hpath, rfl⟩ := List.mem_map.1 (hresolved.mem_iff.1 hentry)
    obtain ⟨form, hfound⟩ := Placeholder.mem_pathsIn.1 hpath
    exact {
      path := h.isPath ((mem_occurringIn_body_iff h).1 hfound)
      forms := ⟨fun form => ⟨path, form⟩ ∈ Placeholder.occurringIn (body parts), rfl⟩
      covers := fun form hform => List.mem_filter.2 ⟨by cases form <;> decide, decide_eq_true
        ((mem_occurringIn_body_iff h).2 (reference_mem_segments_iff.1 hform))⟩
      value := rfl
      inert := hvalues path }
  · have hfound : ⟨path, form⟩ ∈ Placeholder.occurringIn (body parts) :=
      (mem_occurringIn_body_iff h).2 (reference_mem_segments_iff.1 hmem)
    exact ⟨_, hresolved.mem_iff.2 (List.mem_map.2
      ⟨path, Placeholder.mem_pathsIn.2 ⟨form, hfound⟩, rfl⟩), rfl⟩

/-- In the filled body no placeholder is left. -/
theorem occurringIn_flatMap_filled (h : WellSeparated parts)
    (hvalues : ∀ path, Segment.Inert (values path)) :
    Placeholder.occurringIn (parts.flatMap (filled values)) = [] := by
  have hinert : ∀ form path value, (fun (_ : Form) path => some (values path)) form path = some value →
      Segment.Inert value := by
    intro form path value hvalue
    cases hvalue
    exact hvalues path
  have hseparated := h.separated.replace hinert
  have hrender : Segment.render ((parts.flatMap segments).flatMap
    (Segment.replace fun _ path => some (values path))) = parts.flatMap (filled values) := by
    rw [← flatMap_fillWith_segments, Segment.render, List.flatMap_assoc]
    refine List.flatMap_congr fun segment _ => ?_
    cases segment with
    | char c => rfl
    | reference form path => exact Segment.render_map_char (values path)
  refine List.eq_nil_iff_forall_not_mem.2 fun placeholder hfound => ?_
  obtain ⟨path, form⟩ := placeholder
  rw [← hrender, Segment.mem_occurringIn_render_iff hseparated] at hfound
  cases (Segment.mem_flatMap_replace.1 hfound).2

end Part

namespace Substitution

open ServerPack.Part (WellSeparated body filled entries)

variable {σ : Type} {resolve : Text → StateT σ Action Text} {persist : Text → StateT σ Action Unit}

/-- The placeholders of a body of parts that keep apart are its references. If every path of one is
given a value without dollar sign and parenthesis, a run puts the value of its path in place of each
reference at once: the order of the paths does not matter, no placeholder is left, and a second run
changes nothing. -/
theorem run_of_wellSeparated {parts : List Part} (hparts : WellSeparated parts)
    (hresolve : ∀ placeholder, .reference placeholder ∈ parts → ∀ start, ∃ value after,
      Returns (resolve placeholder.path) start value after ∧ Segment.Inert value)
    (hpersist : ∀ text start, ∃ after, Returns (persist text) start () after) (mode : WriteMode)
    (start : σ × Session) :
    (∀ placeholder, placeholder ∈ Placeholder.occurringIn (body parts) ↔ .reference placeholder ∈ parts) ∧
    ∃ values : Text → Text,
      (∀ placeholder, .reference placeholder ∈ parts →
        ∃ before after, Returns (resolve placeholder.path) before (values placeholder.path) after) ∧
      (∃ after, Returns (resolveAll resolve (Placeholder.occurringIn (body parts))) start
        (entries values parts) after) ∧
      (∃ after, Returns (run mode resolve persist (Placeholder.occurringIn (body parts)) (body parts)) start
        (parts.flatMap (filled values)) after) ∧
      (∀ order : List Resolved, order.Perm (entries values parts) → ∀ start, ∃ after,
        Returns (replaceEach mode persist order (body parts)) start (parts.flatMap (filled values)) after) ∧
      Placeholder.occurringIn (parts.flatMap (filled values)) = [] ∧
      ∀ mode start, Returns (run mode resolve persist
        (Placeholder.occurringIn (parts.flatMap (filled values)))
        (parts.flatMap (filled values))) start (parts.flatMap (filled values)) start := by
  have hpaths : ∀ path ∈ Placeholder.pathsIn (body parts), ∀ start, ∃ value after,
      Returns (resolve path) start value after ∧ Segment.Inert value := by
    intro path hpath
    obtain ⟨form, hfound⟩ := Placeholder.mem_pathsIn.1 hpath
    exact hresolve _ ((Part.mem_occurringIn_body_iff hparts).1 hfound)
  have hnodup : (Placeholder.pathsIn (body parts)).Nodup :=
    (Placeholder.increasing_pathsIn (body parts)).imp
        fun {path other} (hlt : path < other) (heq : path = other) =>
      Text.comparable.irrefl _ (heq ▸ hlt)
  obtain ⟨values, hvalues, hgives, between, hbetween⟩ := exists_returns_resolveEntries ⟨nofun, nofun⟩
    (Placeholder.formsIn (body parts)) hnodup hpaths start
  rw [← Placeholder.byPath_occurringIn] at hbetween
  have hempty := Part.occurringIn_flatMap_filled hparts hvalues
  refine ⟨fun _ => Part.mem_occurringIn_body_iff hparts, values, fun placeholder hmem => ?_,
    ⟨between, hbetween⟩, ?_, ?_, hempty, fun mode start => ?_⟩
  · exact hgives _ (Placeholder.mem_pathsIn.2
      ⟨placeholder.form, (Part.mem_occurringIn_body_iff hparts).2 hmem⟩)
  · rw [← Part.fill_body hparts hvalues (.refl _)]
    exact exists_returns_run hpersist mode hbetween (body parts)
  · intro order horder start
    rw [← Part.fill_body hparts hvalues horder]
    exact exists_returns_replaceEach hpersist mode order (body parts) start
  · rw [hempty]
    exact returns_run_nil mode _ start

/-- Both forms of one path next to each other, and another path. -/
def mixedParts : List Part :=
  [.reference ⟨['a'], .text⟩, .reference ⟨['a'], .number⟩, .literal ['$', 'x'], .reference ⟨['b'], .text⟩]

/-- Counts how often it is asked. All paths but one have empty values. -/
def countingResolve (path : Text) : StateT (Nat × List Text) Action Text := do
  modify fun (asked, kept) => (asked + 1, kept)
  return if path = ['a'] then ['"', ')'] else []

/-- Keeps every body. -/
def keepingPersist (text : Text) : StateT (Nat × List Text) Action Unit :=
  modify fun (asked, kept) => (asked, kept ++ [text])

/-- A session with no files. -/
def idleSession : Session where
  files := ⟨.empty, []⟩
  randomness := ⟨fun _ => Fin.last 61, 0⟩
  now := ⟨0, 0, 0⟩

theorem run_of_wellSeparated_mixedParts : ∃ after,
    Returns (run .once countingResolve keepingPersist (Placeholder.occurringIn (body mixedParts))
      (body mixedParts)) ((0, []), idleSession) ['"', ')', '"', ')', '$', 'x'] after := by
  have hresolve : ∀ path start, Returns (countingResolve path) start
    (if path = ['a'] then ['"', ')'] else [])
      ((start.1.1 + 1, start.1.2), start.2) := fun _ _ => rfl
  have hinert : ∀ path : Text, Segment.Inert (if path = ['a'] then ['"', ')'] else []) := by
    intro path
    split
    · exact ⟨by decide, by decide⟩
    · exact ⟨nofun, nofun⟩
  have hpath : ∀ c, c ≠ ')' → Segment.IsPath [c] := fun c hc =>
    ⟨nofun, by simpa using Ne.symm hc, by simp [List.infix_cons_iff]⟩
  have hparts : WellSeparated mixedParts := by
    refine .reference (hpath 'a' (by decide)) nofun (.reference (hpath 'a' (by decide)) ?_
      (.literal nofun (by decide) (by decide) (.reference (hpath 'b' (by decide)) nofun .nil)))
    rintro _ _ ⟨⟩
    decide
  have hpersist : ∀ text start, ∃ after, Returns (keepingPersist text) start () after := fun text start =>
    ⟨((start.1.1, start.1.2 ++ [text]), start.2), rfl⟩
  obtain ⟨-, values, hvalues, -, ⟨after, hrun⟩, -⟩ := run_of_wellSeparated hparts
    (fun placeholder _ start => ⟨_, _, hresolve placeholder.path start, hinert _⟩) hpersist .once
      ((0, []), idleSession)
  have hvalue : ∀ placeholder, .reference placeholder ∈ mixedParts →
      values placeholder.path = if placeholder.path = ['a'] then ['"', ')'] else [] := by
    intro placeholder hmem
    obtain ⟨before, after, hgives⟩ := hvalues placeholder hmem
    have heq := (hresolve placeholder.path before).symm.trans hgives
    exact (congrArg Prod.fst (Except.ok.inj (congrArg Prod.fst heq))).symm
  have hfilled : mixedParts.flatMap (filled values) = ['"', ')', '"', ')', '$', 'x'] := by
    have ha := hvalue ⟨['a'], .text⟩ (by decide)
    have hb := hvalue ⟨['b'], .text⟩ (by decide)
    simp only at ha hb
    simp [mixedParts, filled, ha, hb]
  exact ⟨after, hfilled ▸ hrun⟩

end Substitution

end ServerPack
