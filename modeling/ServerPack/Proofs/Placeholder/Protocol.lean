import ServerPack.Proofs.Placeholder.ByPath
import ServerPack.Proofs.Placeholder.FileSubstitution
import ServerPack.Proofs.Placeholder.SimultaneousSubstitution
import ServerPack.Proofs.Text.Utf8

/-!
What passes between a substitution and those who answer it. A partner resolves paths and takes
bodies; it may keep a state, and any of its answers may be a failure. `Exchanged` is the protocol:
all paths are asked for, in increasing order, before the first body is handed over; the bodies that
a mode provides for are then handed over in order; and the first failure of either kind is the last
answer and the result. A run follows the protocol whatever the partner answers, and its result, the
state of the partner and the calls are what the protocol says and nothing else
(`run_iff_exchanged`).
-/

namespace ServerPack.Substitution

variable {σ α β : Type}

/-- One who resolves paths and takes bodies. The answers may depend on what was asked before. -/
structure Partner (σ : Type) where
  resolve : Text → σ → Except Failure Text × σ
  persist : Text → σ → Except Failure Unit × σ

/-- What a partner is called for. -/
inductive Call where
  | resolve (path : Text)
  | persist (body : Text)
  deriving DecidableEq

/-- The state of a partner, the calls so far, and the session that keeps the log. -/
structure Exchange (σ : Type) where
  state : σ
  calls : List Call
  session : Session

/-- Computations that call a partner and keep what has passed when they fail. -/
abbrev Calling (σ : Type) := ExceptT Failure (StateM (Exchange σ))

instance : MonadLift Action (Calling σ) where
  monadLift action := fun exchange =>
    ((action.perform exchange.session).1, { exchange with session := (action.perform exchange.session).2 })

/-- A call, which is noted, and the answer to it. -/
def Call.answered (call : Call) (answer : σ → Except Failure α × σ) : Calling σ α := fun exchange =>
  ((answer exchange.state).1,
    { exchange with state := (answer exchange.state).2, calls := exchange.calls ++ [call] })

namespace Partner

/-- Asks for the value of a path. -/
def askFor (partner : Partner σ) (path : Text) : Calling σ Text :=
    (Call.resolve path).answered (partner.resolve path)

/-- Hands a body over. -/
def handOver (partner : Partner σ) (body : Text) : Calling σ Unit :=
    (Call.persist body).answered (partner.persist body)

end Partner

/-! Questions that are answered one after the other. -/

/-- From one state to another every question gets a reply. -/
inductive InTurn (answer : α → σ → Except Failure β × σ) : σ → List (α × β) → σ → Prop
  | nil {state} : InTurn answer state [] state
  | cons {state between after question reply rest} (first : answer question state = (.ok reply, between))
      (others : InTurn answer between rest after) : InTurn answer state ((question, reply) :: rest) after

/-- Either all questions get replies or one of them is the first that does not. -/
theorem InTurn.total (answer : α → σ → Except Failure β × σ) (questions : List α) (state : σ) :
    (∃ replies after, replies.map Prod.fst = questions ∧ InTurn answer state replies after) ∨
    ∃ replies question behind between failure after, questions = replies.map Prod.fst ++
      question :: behind ∧
      InTurn answer state replies between ∧ answer question between = (.error failure, after) := by
  induction questions generalizing state with
  | nil => exact .inl ⟨[], state, rfl, .nil⟩
  | cons question questions ih =>
      rcases hanswer : answer question state with ⟨failure | reply, between⟩
      · exact .inr ⟨[], question, questions, state, failure, between, rfl, .nil, hanswer⟩
      · rcases ih between with
          ⟨replies, after, rfl, hreplies⟩ | ⟨replies, other, behind, last, failure, after, rfl,
            hreplies, hlast⟩
        · exact .inl ⟨(question, reply) :: replies, after, rfl, .cons hanswer hreplies⟩
        · exact .inr ⟨(question, reply) :: replies, other, behind, last, failure, after, rfl,
            .cons hanswer hreplies, hlast⟩

/-! The protocol. -/

/-- The distinct paths of a set of placeholders, in increasing order. -/
def pathsAmong (placeholders : List Placeholder) : List Text :=
  Dictionary.distinct (placeholders.map Placeholder.path)

/-- A body with the values of the first paths put in, path by path. -/
def bodyAfter (placeholders : List Placeholder) (body : Text) (answers : List (Text × Text))
    (count : Nat) : Text :=
  (answers.take count).foldl (putIn placeholders) body

/-- The bodies that are handed over: one after each path, or only the last one if there is a
path. -/
def handedOver (mode : WriteMode) (placeholders : List Placeholder) (body : Text)
    (answers : List (Text × Text)) : List Text :=
  match mode with
  | .perPlaceholder => (List.range answers.length).map fun i => bodyAfter placeholders body answers (i + 1)
  | .once => if answers = [] then [] else [bodyAfter placeholders body answers answers.length]

/-- The ways in which an exchange can go: some path has no value, some body is not taken, or
neither. In each of them the result, the state that the partner ends in and the calls are given. -/
inductive Exchanged (partner : Partner σ) (mode : WriteMode) (placeholders : List Placeholder)
    (body : Text) (start : σ) :
    Except Failure Text → σ → List Call → Prop
  | unresolved {answers path behind between failure after}
      (paths : pathsAmong placeholders = answers.map Prod.fst ++ path :: behind)
      (resolved : InTurn partner.resolve start answers between)
      (fails : partner.resolve path between = (.error failure, after)) :
      Exchanged partner mode placeholders body start (.error failure) after
        ((answers.map Prod.fst ++ [path]).map .resolve)
  | refused {answers between taken refused behind last failure after}
      (paths : answers.map Prod.fst = pathsAmong placeholders)
      (resolved : InTurn partner.resolve start answers between)
      (bodies : handedOver mode placeholders body answers = taken.map Prod.fst ++ refused :: behind)
      (persisted : InTurn partner.persist between taken last)
      (fails : partner.persist refused last = (.error failure, after)) :
      Exchanged partner mode placeholders body start (.error failure) after
        ((pathsAmong placeholders).map .resolve ++ (taken.map Prod.fst ++ [refused]).map .persist)
  | completed {answers between taken after}
      (paths : answers.map Prod.fst = pathsAmong placeholders)
      (resolved : InTurn partner.resolve start answers between)
      (bodies : taken.map Prod.fst = handedOver mode placeholders body answers)
      (persisted : InTurn partner.persist between taken after) :
      Exchanged partner mode placeholders body start
        (.ok (bodyAfter placeholders body answers answers.length)) after
        ((pathsAmong placeholders).map .resolve ++ (handedOver mode placeholders body answers).map .persist)

/-- Whatever a partner answers, an exchange with it goes in one of these ways. -/
theorem Exchanged.total (partner : Partner σ) (mode : WriteMode) (placeholders : List Placeholder)
    (body : Text) (start : σ) :
    ∃ result after calls, Exchanged partner mode placeholders body start result after calls := by
  rcases InTurn.total partner.resolve (pathsAmong placeholders) start with
    ⟨answers, between, hpaths, hresolved⟩ | ⟨answers, path, behind, between, failure, after, hpaths,
      hresolved, hfails⟩
  · rcases InTurn.total partner.persist (handedOver mode placeholders body answers) between with
      ⟨taken, after, hbodies, hpersisted⟩ | ⟨taken, refused, behind, last, failure, after, hbodies,
        hpersisted, hfails⟩
    · exact ⟨_, _, _, .completed hpaths hresolved hbodies hpersisted⟩
    · exact ⟨_, _, _, .refused hpaths hresolved hbodies hpersisted hfails⟩
  · exact ⟨_, _, _, .unresolved hpaths hresolved hfails⟩

/-! What comes of a computation that calls a partner. -/

/-- From a state a computation comes to a result and another state, by these calls; what it notes in
the log is left open. -/
def Comes (computation : Calling σ α) (state : σ) (result : Except Failure α) (after : σ)
    (calls : List Call) : Prop :=
  ∀ past session, ∃ noted, computation ⟨state, past, session⟩ = (result, ⟨after, past ++ calls, noted⟩)

theorem run_bind (computation : Calling σ α) (next : α → Calling σ β) (exchange : Exchange σ) :
    (computation >>= next) exchange =
      match computation exchange with
      | (.ok a, after) => next a after
      | (.error failure, after) => (.error failure, after) := by
  simp only [bind, ExceptT.bind, ExceptT.mk, StateT.bind, ExceptT.bindCont]
  rcases computation exchange with ⟨_ | _, _⟩ <;> rfl

section Comes

variable {computation : Calling σ α} {next : α → Calling σ β} {state between after : σ}
  {calls more : List Call}

theorem comes_pure (a : α) (state : σ) : Comes (pure a : Calling σ α) state (.ok a) state [] := by
  intro past session
  exact ⟨session, by rw [List.append_nil]; rfl⟩

theorem comes_answered (call : Call) (answer : σ → Except Failure α × σ) (state : σ) :
    Comes (call.answered answer) state (answer state).1 (answer state).2 [call] :=
    fun _ session => ⟨session, rfl⟩

theorem Comes.bind {a : α} {result : Except Failure β} (h : Comes computation state (.ok a) between calls)
    (h' : Comes (next a) between result after more) :
    Comes (computation >>= next) state result after (calls ++ more) := by
  intro past session
  obtain ⟨noted, hfirst⟩ := h past session
  obtain ⟨noted', hsecond⟩ := h' (past ++ calls) noted
  refine ⟨noted', ?_⟩
  rw [run_bind, hfirst, ← List.append_assoc]
  exact hsecond

theorem Comes.bind_of_error {failure : Failure} (h : Comes computation state (.error failure) after calls) :
    Comes (computation >>= next) state (.error failure) after calls := by
  intro past session
  obtain ⟨noted, hfirst⟩ := h past session
  exact ⟨noted, by rw [run_bind, hfirst]⟩

theorem Comes.map {result : Except Failure α} (h : Comes computation state result after calls) (f : α → β) :
    Comes (computation >>= fun a => pure (f a)) state (result.map f) after calls := by
  cases result with
  | error failure => exact h.bind_of_error
  | ok a =>
      have hend : Comes (computation >>= fun a => pure (f a)) state (.ok (f a)) after (calls ++ []) :=
        h.bind (comes_pure (f a) after)
      rwa [List.append_nil] at hend

/-- A computation may write to the log before it goes on. -/
theorem Comes.log_bind {level : Level} {message : String} {rest : Unit → Calling σ β}
    {result : Except Failure β} (h : Comes (rest ()) state result after calls) :
    Comes ((Action.log level message : Calling σ Unit) >>= rest) state result after calls := by
  intro past session
  exact h past { session with log := session.log ++ [⟨level, message⟩] }

/-- Nothing else comes of it. -/
theorem Comes.eq {result result' : Except Failure α} {after' : σ} {past : List Call}
    {session noted : Session} (h : Comes computation state result after calls)
    (h' : computation ⟨state, past, session⟩ = (result', ⟨after', past ++ more, noted⟩)) :
    result' = result ∧ after' = after ∧ more = calls := by
  obtain ⟨noted', hrun⟩ := h past session
  rw [hrun] at h'
  obtain ⟨hresult, hexchange⟩ := Prod.mk.inj h'
  obtain ⟨hafter, hcalls, -⟩ := Exchange.mk.inj hexchange
  exact ⟨hresult.symm, hafter.symm, (List.append_cancel_left hcalls).symm⟩

end Comes

/-! The parts of a run. -/

/-- The replies to questions up to the first failure, the state after them and the questions that
were asked. -/
def inquire (answer : α → σ → Except Failure β × σ) : List α → σ → Except Failure (List β) × σ × List α
  | [], state => (.ok [], state, [])
  | question :: rest, state =>
    match answer question state with
    | (.error failure, after) => (.error failure, after, [question])
    | (.ok reply, between) =>
      let (replies, after, asked) := inquire answer rest between
      (replies.map (reply :: ·), after, question :: asked)

section Parts

variable {answer : α → σ → Except Failure β × σ} {partner : Partner σ} {state between after : σ}

theorem InTurn.inquire_eq {replies : List (α × β)} (h : InTurn answer state replies after) :
    inquire answer (replies.map Prod.fst) state =
      (.ok (replies.map Prod.snd), after, replies.map Prod.fst) := by
  induction h with
  | nil => rfl
  | cons first _ ih =>
      rw [List.map_cons, List.map_cons, inquire, first]
      simp only [ih]
      rfl

theorem InTurn.inquire_eq_of_error {replies : List (α × β)} {question : α} {failure : Failure}
    (h : InTurn answer state replies between)
    (hfails : answer question between = (.error failure, after)) (behind : List α) :
    inquire answer (replies.map Prod.fst ++ question :: behind) state =
      (.error failure, after, replies.map Prod.fst ++ [question]) := by
  induction h with
  | nil => rw [List.map_nil, List.nil_append, inquire, hfails]; rfl
  | cons first _ ih =>
      rw [List.map_cons, List.cons_append, inquire, first]
      simp only [ih hfails]
      rfl

/-- Resolving asks for the paths in order. -/
theorem comes_resolveEntries (partner : Partner σ) (forms : Text → List Form) (paths : List Text)
    (state : σ) :
    Comes ((paths.map fun path => (path, forms path)).mapM (resolveEntry partner.askFor)) state
      ((inquire partner.resolve paths state).1.map
        (List.zipWith (fun path value => ⟨path, forms path, value⟩) paths))
      (inquire partner.resolve paths state).2.1
        ((inquire partner.resolve paths state).2.2.map .resolve) := by
  induction paths generalizing state with
  | nil => exact comes_pure [] state
  | cons path rest ih =>
      have hask := comes_answered (.resolve path) (partner.resolve path) state
      rw [List.map_cons, List.mapM_cons, inquire]
      rcases hanswer : partner.resolve path state with ⟨failure | value, between⟩
      · rw [hanswer] at hask
        exact Comes.bind_of_error (Comes.bind_of_error hask)
      · rw [hanswer] at hask
        have hentry : Comes (resolveEntry partner.askFor (path, forms path)) state
          (.ok ⟨path, forms path, value⟩) between
            [.resolve path] := hask.bind (comes_pure _ between)
        refine hentry.bind ?_
        have hrest := (ih between).map (fun others => (⟨path, forms path, value⟩ : Resolved) :: others)
        simp only
        cases hreplies : (inquire partner.resolve rest between).1 <;> rw [hreplies] at hrest <;> exact hrest

/-- The bodies on the way, one after each path. -/
def successive (body : Text) : List Resolved → List Text
  | [] => []
  | resolved :: rest => resolved.replaceIn body :: successive (resolved.replaceIn body) rest

/-- The bodies that a mode provides for. -/
def provided (mode : WriteMode) (resolved : List Resolved) (body : Text) : List Text :=
  match mode with
  | .perPlaceholder => successive body resolved
  | .once => if resolved = [] then [] else [fill resolved body]

/-- Replacing path by path hands over the bodies on the way. -/
theorem comes_replaceEach (partner : Partner σ) (resolved : List Resolved) (body : Text) (state : σ) :
    Comes (replaceEach .perPlaceholder partner.handOver resolved body) state
      ((inquire partner.persist (successive body resolved) state).1.map fun _ => fill resolved body)
      (inquire partner.persist (successive body resolved) state).2.1
      ((inquire partner.persist (successive body resolved) state).2.2.map .persist) := by
  induction resolved generalizing body state with
  | nil => exact comes_pure body state
  | cons first rest ih =>
      have hhand := comes_answered (.persist (first.replaceIn body))
        (partner.persist (first.replaceIn body)) state
      rw [replaceEach, successive, inquire]
      dsimp only
      apply Comes.log_bind
      rw [if_pos rfl]
      rcases hanswer : partner.persist (first.replaceIn body) state with ⟨failure | _, between⟩
      · rw [hanswer] at hhand
        exact hhand.bind_of_error
      · rw [hanswer] at hhand
        refine hhand.bind ?_
        have hrest := ih (first.replaceIn body) between
        simp only
        cases hreplies : (inquire partner.persist (successive (first.replaceIn body) rest) between).1 <;>
          rw [hreplies] at hrest <;> exact hrest

/-- In the other mode nothing is handed over on the way. -/
theorem comes_replaceEach_once (partner : Partner σ) (resolved : List Resolved) (body : Text) (state : σ) :
    Comes (replaceEach .once partner.handOver resolved body) state (.ok (fill resolved body)) state [] := by
  induction resolved generalizing body with
  | nil => exact comes_pure body state
  | cons first rest ih =>
      rw [replaceEach]
      dsimp only
      apply Comes.log_bind
      rw [if_neg (by decide)]
      exact ih (first.replaceIn body)

/-- Once the paths are resolved the bodies are handed over that the mode provides for. -/
theorem comes_deliver (partner : Partner σ) (mode : WriteMode) (resolved : List Resolved)
    (body : Text) (state : σ) :
    Comes (replaceEach mode partner.handOver resolved body >>= fun body => do
        if mode = .once ∧ resolved ≠ [] then partner.handOver body
        return body) state
      ((inquire partner.persist (provided mode resolved body) state).1.map fun _ => fill resolved body)
      (inquire partner.persist (provided mode resolved body) state).2.1
      ((inquire partner.persist (provided mode resolved body) state).2.2.map .persist) := by
  cases mode with
  | perPlaceholder =>
      simp only [reduceCtorEq, false_and, if_false, bind_pure]
      exact comes_replaceEach partner resolved body state
  | once =>
      refine (comes_replaceEach_once partner resolved body state).bind ?_
      by_cases hnil : resolved = []
      · simp only [hnil, provided, ne_eq, not_true_eq_false, and_false, if_false, if_true]
        exact comes_pure _ state
      · have hhand := comes_answered (.persist (fill resolved body))
          (partner.persist (fill resolved body)) state
        simp only [hnil, provided, ne_eq, not_false_eq_true, and_self, if_true, if_false, inquire]
        rcases hanswer : partner.persist (fill resolved body) state with ⟨failure | _, between⟩
        · rw [hanswer] at hhand
          exact hhand.bind_of_error
        · rw [hanswer] at hhand
          exact hhand.bind (comes_pure _ between)

end Parts

/-! The whole run. -/

section Runs

variable {placeholders : List Placeholder} {answers : List (Text × Text)} {partner : Partner σ}
  {mode : WriteMode} {body : Text} {start after : σ} {result : Except Failure Text} {calls : List Call}

/-- A path with its value and the forms in which a set has it. -/
def entry (placeholders : List Placeholder) (answer : Text × Text) : Resolved :=
  ⟨answer.1, Placeholder.formsAmong placeholders answer.1, answer.2⟩

theorem replaceIn_entry (placeholders : List Placeholder) (body : Text) (answer : Text × Text) :
    (entry placeholders answer).replaceIn body = putIn placeholders body answer :=
    Resolved.replaceIn_eq_putIn rfl body

theorem fill_entries (placeholders : List Placeholder) (answers : List (Text × Text)) (body : Text) :
    fill (answers.map (entry placeholders)) body = answers.foldl (putIn placeholders) body := by
  rw [fill, List.foldl_map]
  simp only [replaceIn_entry]

theorem successive_entries (placeholders : List Placeholder) (answers : List (Text × Text)) (body : Text) :
    successive body (answers.map (entry placeholders)) =
      (List.range answers.length).map fun i => bodyAfter placeholders body answers (i + 1) := by
  induction answers generalizing body with
  | nil => rfl
  | cons answer rest ih =>
      rw [List.map_cons, successive, replaceIn_entry, ih, List.length_cons, List.range_succ_eq_map,
        List.map_cons, List.map_map]
      rfl

/-- The bodies that a mode provides for are those of the protocol. -/
theorem provided_entries (mode : WriteMode) (placeholders : List Placeholder)
    (answers : List (Text × Text)) (body : Text) :
    provided mode (answers.map (entry placeholders)) body = handedOver mode placeholders body answers := by
  cases mode with
  | perPlaceholder => exact successive_entries placeholders answers body
  | once => simp only [provided, handedOver, List.map_eq_nil_iff, fill_entries, bodyAfter, List.take_length]

/-- The last body that is handed over is the one that a run gives. -/
theorem getLast?_handedOver (mode : WriteMode) (placeholders : List Placeholder) (body : Text)
    (hanswers : answers ≠ []) :
    (handedOver mode placeholders body answers).getLast? = some
      (bodyAfter placeholders body answers answers.length) := by
  have hpositive : 0 < answers.length := List.length_pos_iff.2 hanswers
  cases mode with
  | perPlaceholder =>
      obtain ⟨n, hn⟩ : ∃ n, answers.length = n + 1 := ⟨answers.length - 1, by omega⟩
      rw [handedOver, hn, List.range_succ, List.map_append, List.map_singleton, List.getLast?_concat]
  | once => rw [handedOver, if_neg hanswers, List.getLast?_singleton]

theorem mem_pathsAmong {path : Text} : path ∈ pathsAmong placeholders ↔
    ∃ form, ⟨path, form⟩ ∈ placeholders := by
  rw [pathsAmong, Dictionary.mem_distinct, List.mem_map]
  constructor
  · rintro ⟨⟨_, form⟩, hmem, rfl⟩
    exact ⟨form, hmem⟩
  · rintro ⟨form, hmem⟩
    exact ⟨_, hmem, rfl⟩

theorem comes_resolveAll (hset : placeholders.Pairwise (· < ·)) (partner : Partner σ) (state : σ) :
    let asked := inquire partner.resolve (pathsAmong placeholders) state
    Comes (resolveAll partner.askFor placeholders) state
      (asked.1.map (List.zipWith (fun path value => entry placeholders (path, value))
        (pathsAmong placeholders)))
      asked.2.1 (asked.2.2.map .resolve) := by
  rw [resolveAll, Placeholder.byPath_of_increasing hset]
  exact comes_resolveEntries partner (Placeholder.formsAmong placeholders) (pathsAmong placeholders) state

/-- When all paths have values, a run goes on to hand over what the mode provides for. -/
theorem comes_run_of_resolved (mode : WriteMode) (body : Text)
    (hset : placeholders.Pairwise (· < ·)) {between : σ}
    (hpaths : answers.map Prod.fst = pathsAmong placeholders)
    (hresolved : InTurn partner.resolve start answers between) :
    let taken := inquire partner.persist (handedOver mode placeholders body answers) between
    Comes (run mode partner.askFor partner.handOver placeholders body) start
      (taken.1.map fun _ => bodyAfter placeholders body answers answers.length) taken.2.1
      ((pathsAmong placeholders).map .resolve ++ taken.2.2.map .persist) := by
  have hall := comes_resolveAll hset partner start
  rw [← hpaths, hresolved.inquire_eq] at hall
  have hentries : List.zipWith (fun path value => entry placeholders (path, value)) (answers.map Prod.fst)
      (answers.map Prod.snd) = answers.map (entry placeholders) := by
    rw [List.zipWith_map, List.zipWith_self]
  have hdeliver := comes_deliver partner mode (answers.map (entry placeholders)) body between
  rw [provided_entries, fill_entries] at hdeliver
  rw [bodyAfter, List.take_length, ← hpaths]
  simp only [Except.map, hentries] at hall
  exact hall.bind hdeliver

/-- Whatever the protocol says comes of a run. -/
theorem Exchanged.comes (hset : placeholders.Pairwise (· < ·))
    (h : Exchanged partner mode placeholders body start result after calls) :
    Comes (run mode partner.askFor partner.handOver placeholders body) start result after calls := by
  cases h with
  | unresolved paths resolved fails =>
      have hall := comes_resolveAll hset partner start
      rw [paths, resolved.inquire_eq_of_error fails] at hall
      exact hall.bind_of_error
  | refused paths resolved bodies persisted fails =>
      have hrun := comes_run_of_resolved mode body hset paths resolved
      rw [bodies, persisted.inquire_eq_of_error fails] at hrun
      exact hrun
  | completed paths resolved bodies persisted =>
      have hrun := comes_run_of_resolved mode body hset paths resolved
      rw [← bodies, persisted.inquire_eq] at hrun
      rwa [← bodies]

/-- A run on any set of placeholders and any body, with any partner, goes as the protocol says: the
paths of the set, each once and in increasing order of their bytes, are asked for up to the first
that has no value, and then no body is handed over and that failure is the result; if all have
values, the bodies of the mode are handed over up to the first that is not taken, the failure of
which is the result; if all are taken, the result is the body after all paths, which is the last
that was handed over. Nothing else can come of a run. -/
theorem run_iff_exchanged (hset : placeholders.Pairwise (· < ·)) (partner : Partner σ)
    (mode : WriteMode) (body : Text) (start : σ) :
    (pathsAmong placeholders).Pairwise (fun a b => Utf8.encode a < Utf8.encode b) ∧
    (∀ path, path ∈ pathsAmong placeholders ↔ ∃ form, ⟨path, form⟩ ∈ placeholders) ∧
    (∀ answers, answers ≠ [] → (handedOver mode placeholders body answers).getLast? =
      some (bodyAfter placeholders body answers answers.length)) ∧
    ∀ past session result after calls,
      (∃ noted, run mode partner.askFor partner.handOver placeholders body ⟨start, past, session⟩ =
        (result, ⟨after, past ++ calls, noted⟩)) ↔
      Exchanged partner mode placeholders body start result after calls := by
  refine ⟨?_, fun _ => mem_pathsAmong, fun _ => getLast?_handedOver mode placeholders body, ?_⟩
  · exact (Dictionary.increasing_distinct Text.comparable _).imp fun hlt => Utf8.encode_lt_encode hlt
  · intro past session result after calls
    constructor
    · rintro ⟨noted, hrun⟩
      obtain ⟨result', after', calls', hexchanged⟩ := Exchanged.total partner mode placeholders body start
      obtain ⟨rfl, rfl, rfl⟩ := (hexchanged.comes hset).eq hrun
      exact hexchanged
    · intro hexchanged
      exact hexchanged.comes hset past session

end Runs

/-- Gives the path itself for a path and takes bodies as long as it has fewer than so many. -/
def keeping (room : Nat) : Partner (List Text) where
  resolve path kept := (.ok path, kept)
  persist body kept := if kept.length < room then (.ok (), kept ++ [body]) else
    (.error (.refused "full".toList), kept)

/-- Two forms of one path and another path; the second body is not taken. -/
theorem run_iff_exchanged_keeping :
    [⟨['a'], .number⟩, ⟨['a'], .text⟩, (⟨['b'], .text⟩ : Placeholder)].Pairwise (· < ·) ∧
    ∃ noted, run .perPlaceholder (keeping 1).askFor (keeping 1).handOver
        [⟨['a'], .number⟩, ⟨['a'], .text⟩, ⟨['b'], .text⟩] "\"$(mcp.a)(number)\"$(mcp.b)$(mcp.a)".toList
        ⟨[], [], idleSession⟩ =
      (.error (.refused "full".toList), ⟨["a$(mcp.b)a".toList],
        [.resolve ['a'], .resolve ['b'], .persist "a$(mcp.b)a".toList, .persist "aba".toList], noted⟩) := by
  have hset : [⟨['a'], .number⟩, ⟨['a'], .text⟩, (⟨['b'], .text⟩ : Placeholder)].Pairwise
    (· < ·) := by decide
  obtain ⟨-, -, -, hruns⟩ := run_iff_exchanged hset (keeping 1) .perPlaceholder
    "\"$(mcp.a)(number)\"$(mcp.b)$(mcp.a)".toList []
  have hpaths : [(['a'], ['a']), (['b'], ['b'])].map Prod.fst =
      pathsAmong [⟨['a'], .number⟩, ⟨['a'], .text⟩, ⟨['b'], .text⟩] := by decide
  have hresolved : InTurn (keeping 1).resolve [] [(['a'], ['a']), (['b'], ['b'])] [] :=
    .cons rfl (.cons rfl .nil)
  have hpersisted : InTurn (keeping 1).persist [] [("a$(mcp.b)a".toList, ())]
    ["a$(mcp.b)a".toList] := .cons rfl .nil
  have hbodies : handedOver .perPlaceholder [⟨['a'], .number⟩, ⟨['a'], .text⟩, ⟨['b'], .text⟩]
      "\"$(mcp.a)(number)\"$(mcp.b)$(mcp.a)".toList [(['a'], ['a']), (['b'], ['b'])] =
        [("a$(mcp.b)a".toList, ())].map Prod.fst ++ "aba".toList :: [] := by decide +kernel
  exact ⟨hset, (hruns [] idleSession _ _ _).2 (.refused hpaths hresolved hbodies hpersisted rfl)⟩

end ServerPack.Substitution
