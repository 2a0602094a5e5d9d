import ServerPack.Session

/-!
Actions step by step. `perform` of each primitive is one equation, and `perform_bind` goes on where
an action has left its session, so a successful action can be taken apart (`bind_eq_ok_iff`).
`Succeeds` says when an action succeeds and what it does then; conditions of actions that are done
one after the other are put together (`Succeeds.bind`).

`outcome` is what an action does apart from the log. An action is `Quiet` if its outcome does not
depend on the log that it finds; of quiet actions the outcomes compose like the actions
(`outcome_bind`).
-/

namespace ServerPack

/-- The session with nothing in its log. -/
def Session.silent (session : Session) : Session := { session with log := [] }

namespace Action

variable {α β γ : Type}

@[simp] theorem perform_pure (a : α) (session : Session) :
    (pure a : Action α).perform session = (.ok a, session) := rfl

@[simp] theorem perform_throw (failure : Failure) (session : Session) :
    (throw failure : Action α).perform session = (.error failure, session) := rfl

@[simp] theorem perform_log (level : Level) (message : String) (session : Session) :
    (log level message).perform session =
      (.ok (), { session with log := session.log ++ [⟨level, message⟩] }) := rfl

@[simp] theorem perform_ask (question : FileSystem → α) (session : Session) :
    (ask question).perform session = (.ok (question session.files), session) := rfl

@[simp] theorem perform_get (session : Session) :
    (get : Action Session).perform session = (.ok session, session) := rfl

@[simp] theorem perform_modify (f : Session → Session) (session : Session) :
    (modify f : Action Unit).perform session = (.ok (), f session) := rfl

theorem perform_bind (action : Action α) (next : α → Action β) (session : Session) :
    (action >>= next).perform session =
      match action.perform session with
      | (.ok a, after) => (next a).perform after
      | (.error failure, after) => (.error failure, after) := by
  simp only [perform, bind, ExceptT.bind, ExceptT.mk, ExceptT.run, StateT.bind, StateT.run,
    ExceptT.bindCont]
  rcases action session with ⟨_ | _, _⟩ <;> rfl

theorem perform_tryCatch (action : Action α) (handler : Failure → Action α) (session : Session) :
    (tryCatch action handler).perform session =
      match action.perform session with
      | (.ok a, after) => (.ok a, after)
      | (.error failure, after) => (handler failure).perform after := by
  simp only [perform, tryCatch, tryCatchThe, MonadExceptOf.tryCatch, ExceptT.tryCatch, ExceptT.mk,
    ExceptT.run, StateT.bind, StateT.run, bind]
  rcases action session with ⟨_ | _, _⟩ <;> rfl

theorem perform_change (update : FileSystem → Except IoFault FileSystem) (session : Session) :
    (change update).perform session =
      match update session.files with
      | .ok files => (.ok (), { session with files := files })
      | .error fault => (.error (.io fault), session) := by
  rw [change, perform_bind, perform_get]
  cases hupdate : update session.files <;> simp [hupdate]

theorem change_eq_ok_iff {update : FileSystem → Except IoFault FileSystem} {session after : Session} :
    (change update).perform session = (.ok (), after) ↔
      ∃ files, update session.files = .ok files ∧ { session with files } = after := by
  rw [perform_change]
  cases update session.files <;> simp

/-- What went before is done when the whole succeeds. -/
theorem bind_eq_ok_iff {action : Action α} {next : α → Action β} {session after : Session} {b : β} :
    (action >>= next).perform session = (.ok b, after) ↔
      ∃ a between, action.perform session = (.ok a, between) ∧
      (next a).perform between = (.ok b, after) := by
  rw [perform_bind]
  rcases action.perform session with ⟨_ | a, between⟩
  · simp
  · exact ⟨fun h => ⟨a, between, rfl, h⟩, fun ⟨_, _, h, h'⟩ => by cases h; exact h'⟩

theorem perform_bind_of_ok {action : Action α} {next : α → Action β} {session between : Session} {a : α}
    (h : action.perform session = (.ok a, between)) :
    (action >>= next).perform session = (next a).perform between := by rw [perform_bind, h]

theorem perform_bind_of_error {action : Action α} {next : α → Action β} {session between : Session}
    {failure : Failure} (h : action.perform session = (.error failure, between)) :
    (action >>= next).perform session = (.error failure, between) := by rw [perform_bind, h]

/-- What comes of two actions comes of the first one if that fails, and of the second one
otherwise. -/
theorem bind_cases {action : Action α} {next : α → Action β} {session after : Session}
    {result : Except Failure β} (h : (action >>= next).perform session = (result, after)) :
    (∃ failure, action.perform session = (.error failure, after) ∧ result = .error failure) ∨
      ∃ a between, action.perform session = (.ok a, between) ∧
      (next a).perform between = (result, after) := by
  rw [perform_bind] at h
  rcases haction : action.perform session with ⟨failure | a, between⟩ <;> rw [haction] at h
  · obtain ⟨rfl, rfl⟩ := Prod.mk.inj h
    exact .inl ⟨failure, rfl, rfl⟩
  · exact .inr ⟨a, between, rfl, h⟩

theorem ofExcept_eq_ok_iff {result : Except Failure α} {session after : Session} {a : α} :
    (ofExcept result).perform session = (.ok a, after) ↔ result = .ok a ∧ after = session := by
  cases result with
  | ok b => simp [ofExcept, eq_comm]
  | error failure =>
      rw [ofExcept]
      cases failure.diagnosis <;> simp [perform_bind]

theorem ofExcept_eq_error {result : Except Failure α} {session after : Session} {failure : Failure}
    (h : (ofExcept result).perform session = (.error failure, after)) : result = .error failure := by
  cases result with
  | ok a => cases h
  | error failure' =>
      rw [ofExcept] at h
      cases hdiagnosis : failure'.diagnosis <;> rw [hdiagnosis] at h <;> cases h <;> rfl

/-! When actions succeed. -/

/-- An action succeeds just under a condition, and then it has an effect. -/
structure Succeeds (action : Action Unit) (session : Session) (condition : Prop)
    (effect : Session → Prop) : Prop where
  complete : condition → ∃ after, action.perform session = (.ok (), after)
  sound {after : Session} : action.perform session = (.ok (), after) → condition ∧ effect after

namespace Succeeds

variable {action action' : Action Unit} {next : Unit → Action Unit} {session : Session}
  {condition condition' : Prop} {effect effect' : Session → Prop}

theorem mono (h : action.Succeeds session condition effect) (hcondition : condition' ↔ condition)
    (heffect : ∀ after, condition → effect after → effect' after) :
    action.Succeeds session condition' effect' where
  complete hnow := h.complete (hcondition.1 hnow)
  sound hperform :=
    have hsound := h.sound hperform
    ⟨hcondition.2 hsound.1, heffect _ hsound.1 hsound.2⟩

theorem congr (h : action.Succeeds session condition effect)
    (hsame : action'.perform session = action.perform session) :
    action'.Succeeds session condition effect where
  complete hcondition := by
    rw [hsame]
    exact h.complete hcondition
  sound hperform := by
    rw [hsame] at hperform
    exact h.sound hperform

/-- Of two actions both have to succeed, the second one where the first one has led. -/
theorem bind (h : action.Succeeds session condition effect)
    (hnext : ∀ between, condition → effect between → (next ()).Succeeds between condition' effect') :
    (action >>= next).Succeeds session (condition ∧ condition') effect' where
  complete := by
    rintro ⟨hcondition, hcondition'⟩
    obtain ⟨between, hbetween⟩ := h.complete hcondition
    rw [perform_bind_of_ok hbetween]
    exact (hnext between hcondition (h.sound hbetween).2).complete hcondition'
  sound hperform := by
    obtain ⟨_, between, hbetween, hafter⟩ := bind_eq_ok_iff.1 hperform
    obtain ⟨hcondition, heffect⟩ := h.sound hbetween
    obtain ⟨hcondition', heffect'⟩ := (hnext between hcondition heffect).sound hafter
    exact ⟨⟨hcondition, hcondition'⟩, heffect'⟩

theorem ofExcept (result : Except Failure Unit) (session : Session) :
    (ofExcept result).Succeeds session (result = .ok ()) (· = session) where
  complete hresult := ⟨session, ofExcept_eq_ok_iff.2 ⟨hresult, rfl⟩⟩
  sound hperform := ofExcept_eq_ok_iff.1 hperform

/-- A loop succeeds if each of its steps does; its invariant tells what is still to be done. -/
theorem forM {body : α → Action Unit} {condition : α → Prop} {invariant : List α → Session → Prop}
    (hbody : ∀ a rest session, invariant (a :: rest) session →
      (body a).Succeeds session (condition a) (invariant rest))
    {l : List α} (h : invariant l session) :
    (l.forM body).Succeeds session (∀ a ∈ l, condition a) (invariant []) := by
  induction l generalizing session with
  | nil => exact ⟨fun _ => ⟨session, rfl⟩, fun hperform => by cases hperform; exact ⟨nofun, h⟩⟩
  | cons a rest ih =>
      have hboth : (body a >>= fun _ => rest.forM body).Succeeds session _ _ :=
        (hbody a rest session h).bind fun _ _ hrest => ih hrest
      exact hboth.mono List.forall_mem_cons fun _ _ => id

end Succeeds

/-! What an action does apart from the log. -/

/-- The result of an action and the session that it leaves, without the log. -/
def outcome (action : Action α) (session : Session) : Except Failure α × Session :=
  ((action.perform session).1, (action.perform session).2.silent)

theorem outcome_eq_ok_iff {action : Action α} {session after : Session} {a : α} :
    action.outcome session = (.ok a, after) ↔
      ∃ noisy, action.perform session = (.ok a, noisy) ∧ after = noisy.silent := by
  rw [outcome]
  constructor
  · intro h
    obtain ⟨hresult, hafter⟩ := Prod.ext_iff.1 h
    exact ⟨(action.perform session).2, Prod.ext hresult rfl, hafter.symm⟩
  · rintro ⟨noisy, h, rfl⟩
    rw [h]

/-- What the action does does not depend on the log. -/
def Quiet (action : Action α) : Prop := ∀ session, action.outcome session.silent = action.outcome session

@[simp] theorem outcome_pure (a : α) (session : Session) :
    (pure a : Action α).outcome session = (.ok a, session.silent) := rfl

@[simp] theorem outcome_log (level : Level) (message : String) (session : Session) :
    (log level message).outcome session = (.ok (), session.silent) := rfl

theorem outcome_ofExcept (result : Except Failure α) (session : Session) :
    (ofExcept result).outcome session = (result, session.silent) := by
  cases result with
  | ok a => rfl
  | error failure =>
      rw [ofExcept]
      cases failure.diagnosis <;> rfl

/-- The outcome of a quiet action is the same for sessions that differ in the log. -/
theorem Quiet.outcome_eq {action : Action α} (h : action.Quiet) {session : Session} (session' : Session)
    (hsilent : session.silent = session'.silent) : action.outcome session = action.outcome session' := by
  rw [← h session, ← h session', hsilent]

theorem outcome_bind {action : Action α} {next : α → Action β} (hnext : ∀ a, (next a).Quiet)
    (session : Session) :
    (action >>= next).outcome session =
      match action.outcome session with
      | (.ok a, after) => (next a).outcome after
      | (.error failure, after) => (.error failure, after) := by
  rw [outcome, perform_bind, outcome]
  rcases action.perform session with ⟨_ | a, between⟩
  · rfl
  · exact (hnext a between).symm

theorem outcome_bind_of_ok {action : Action α} {next : α → Action β} (hnext : ∀ a, (next a).Quiet)
    {session after : Session} {a : α} (h : action.outcome session = (.ok a, after)) :
    (action >>= next).outcome session = (next a).outcome after := by rw [outcome_bind hnext, h]

theorem outcome_bind_of_perform {action : Action α} {next : α → Action β} {session after : Session} {a : α}
    (h : action.perform session = (.ok a, after)) :
    (action >>= next).outcome session = (next a).outcome after := by
  rw [outcome, outcome, perform_bind_of_ok h]

theorem outcome_bind_of_error {action : Action α} {next : α → Action β} {session after : Session}
    {failure : Failure} (h : action.outcome session = (.error failure, after)) :
    (action >>= next).outcome session = (.error failure, after) := by
  rw [outcome] at h
  rcases hperform : action.perform session with ⟨_ | a, between⟩
  · rw [hperform] at h
    cases h
    rw [outcome, perform_bind_of_error hperform]
  · rw [hperform] at h
    cases h

theorem outcome_log_bind {level : Level} {message : String} {next : Unit → Action β}
    (hnext : (next ()).Quiet) (session : Session) :
    (log level message >>= next).outcome session = (next ()).outcome session := by
  rw [outcome_bind_of_ok (fun _ => hnext) (outcome_log ..), hnext]

/-- Outcomes are the same where those of the parts are. -/
theorem outcome_bind_congr {action action' : Action α} {next next' : α → Action β}
    (hnext : ∀ a, (next a).Quiet) (hnext' : ∀ a, (next' a).Quiet) {session : Session}
    (h : action.outcome session = action'.outcome session)
    (h' : ∀ a after, action.outcome session = (.ok a, after) →
      (next a).outcome after = (next' a).outcome after) :
    (action >>= next).outcome session = (action' >>= next').outcome session := by
  rw [outcome_bind hnext, outcome_bind hnext', ← h]
  rcases haction : action.outcome session with ⟨_ | a, after⟩
  · rfl
  · exact h' a after haction

namespace Quiet

theorem pure (a : α) : (pure a : Action α).Quiet := fun _ => rfl

theorem throw (failure : Failure) : (throw failure : Action α).Quiet := fun _ => rfl

theorem log (level : Level) (message : String) : (log level message).Quiet := fun _ => rfl

theorem ask (question : FileSystem → α) : (ask question).Quiet := fun _ => rfl

theorem modify {f : Session → Session} (hf : ∀ session, (f session.silent).silent = (f session).silent) :
    (modify f : Action Unit).Quiet := fun session => Prod.ext rfl (hf session)

theorem bind {action : Action α} {next : α → Action β} (h : action.Quiet) (hnext : ∀ a, (next a).Quiet) :
    (action >>= next).Quiet := by
  intro session
  rw [outcome_bind hnext, outcome_bind hnext, h]

theorem get_bind {next : Session → Action α} (hnext : ∀ session, (next session).Quiet)
    (hsilent : ∀ session, next session.silent = next session) :
    ((get : Action Session) >>= next).Quiet := by
  intro session
  rw [outcome_bind hnext, outcome_bind hnext]
  change (next session.silent).outcome session.silent.silent = (next session).outcome session.silent
  rw [hsilent]
  rfl

theorem change (update : FileSystem → Except IoFault FileSystem) : (change update).Quiet := by
  intro session
  simp only [outcome, perform_change]
  rw [show session.silent.files = session.files from rfl]
  cases update session.files <;> rfl

theorem tryCatch {action : Action α} {handler : Failure → Action α} (h : action.Quiet)
    (hhandler : ∀ failure, (handler failure).Quiet) : (tryCatch action handler).Quiet := by
  intro session
  have hsession := h session
  simp only [outcome, perform_tryCatch] at hsession ⊢
  rcases hperform : action.perform session with ⟨failure | a, after⟩ <;>
    rcases hperform' : action.perform session.silent with ⟨failure' | a', after'⟩ <;>
    rw [hperform, hperform'] at hsession <;> obtain ⟨hresult, hafter⟩ :=
      Prod.ext_iff.1 hsession <;> cases hresult
  · have hfailure := hhandler failure after
    have hfailure' := hhandler failure after'
    simp only [outcome] at hfailure hfailure' hafter
    rw [← hfailure, ← hfailure', hafter]
  · exact hsession

theorem ofExcept (result : Except Failure α) : (ofExcept result).Quiet := by
  cases result with
  | ok a => exact pure a
  | error failure =>
      rw [Action.ofExcept]
      cases failure.diagnosis with
      | none => exact throw failure
      | some line => exact bind (log _ _) fun _ => throw failure

theorem mapM {f : α → Action β} {l : List α} (h : ∀ a ∈ l, (f a).Quiet) : (l.mapM f).Quiet := by
  induction l with
  | nil => exact pure []
  | cons a l ih =>
      rw [List.mapM_cons]
      exact bind (h a List.mem_cons_self) fun _ =>
        bind (ih fun b hb => h b (List.mem_cons_of_mem _ hb)) fun _ => pure _

theorem forM {f : α → Action Unit} {l : List α} (h : ∀ a ∈ l, (f a).Quiet) : (l.forM f).Quiet := by
  induction l with
  | nil => exact pure ()
  | cons a l ih =>
      exact bind (h a List.mem_cons_self) fun _ => ih fun b hb => h b (List.mem_cons_of_mem _ hb)

end Quiet

/-! What an action leaves as it is. -/

/-- A view of the session, in which the log does not show, is the same afterwards. -/
def Keeps {σ : Type} (view : Session → σ) (action : Action α) : Prop :=
  ∀ session, view (action.perform session).2.silent = view session.silent

namespace Keeps

variable {σ : Type} {view : Session → σ}

theorem view_eq {action : Action α} (h : action.Keeps view) {session after : Session}
    {result : Except Failure α} (hperform : action.perform session = (result, after)) :
    view after.silent = view session.silent := by
  rw [← h session, hperform]

theorem pure (a : α) : (pure a : Action α).Keeps view := fun _ => rfl

theorem throw (failure : Failure) : (throw failure : Action α).Keeps view := fun _ => rfl

theorem log (level : Level) (message : String) : (log level message).Keeps view := fun _ => rfl

theorem ask (question : FileSystem → α) : (ask question).Keeps view := fun _ => rfl

theorem modify {f : Session → Session} (hf : ∀ session, view (f session).silent = view session.silent) :
    (modify f : Action Unit).Keeps view := hf

theorem bind {action : Action α} {next : α → Action β} (h : action.Keeps view)
    (hnext : ∀ a, (next a).Keeps view) :
    (action >>= next).Keeps view := by
  intro session
  have hsession := h session
  rw [perform_bind]
  rcases hperform : action.perform session with ⟨_ | a, between⟩
  · rw [hperform] at hsession
    exact hsession
  · rw [hperform] at hsession
    exact (hnext a between).trans hsession

theorem get_bind {next : Session → Action α} (hnext : ∀ session, (next session).Keeps view) :
    ((get : Action Session) >>= next).Keeps view := bind (fun _ => rfl) hnext

theorem tryCatch {action : Action α} {handler : Failure → Action α} (h : action.Keeps view)
    (hhandler : ∀ failure, (handler failure).Keeps view) : (tryCatch action handler).Keeps view := by
  intro session
  have hsession := h session
  rw [perform_tryCatch]
  rcases hperform : action.perform session with ⟨failure | a, after⟩
  · rw [hperform] at hsession
    exact (hhandler failure after).trans hsession
  · rw [hperform] at hsession
    exact hsession

theorem ofExcept (result : Except Failure α) : (ofExcept result).Keeps view := by
  cases result with
  | ok a => exact pure a
  | error failure =>
      rw [Action.ofExcept]
      cases failure.diagnosis with
      | none => exact throw failure
      | some line => exact bind (log _ _) fun _ => throw failure

theorem mapM {f : α → Action β} {l : List α} (h : ∀ a ∈ l, (f a).Keeps view) : (l.mapM f).Keeps view := by
  induction l with
  | nil => exact pure []
  | cons a l ih =>
      rw [List.mapM_cons]
      exact bind (h a List.mem_cons_self) fun _ =>
        bind (ih fun b hb => h b (List.mem_cons_of_mem _ hb)) fun _ => pure _

theorem forM {f : α → Action Unit} {l : List α} (h : ∀ a ∈ l, (f a).Keeps view) :
    (l.forM f).Keeps view := by
  induction l with
  | nil => exact pure ()
  | cons a l ih =>
      exact bind (h a List.mem_cons_self) fun _ => ih fun b hb => h b (List.mem_cons_of_mem _ hb)

end Keeps

/-- The action leaves everything but the log as it is. -/
def Reads (action : Action α) : Prop := action.Keeps id

theorem Reads.silent_eq {action : Action α} (h : action.Reads) {session after : Session}
    {result : Except Failure α} (hperform : action.perform session = (result, after)) :
    after.silent = session.silent := h.view_eq hperform

theorem Reads.files_eq {action : Action α} (h : action.Reads) {session after : Session}
    {result : Except Failure α} (hperform : action.perform session = (result, after)) :
    after.files = session.files :=
  (Session.mk.inj (h.silent_eq hperform)).1

/-- The action draws no randomness. -/
def Frugal (action : Action α) : Prop := action.Keeps Session.randomness

theorem Frugal.randomness_eq {action : Action α} (h : action.Frugal) {session after : Session}
    {result : Except Failure α} (hperform : action.perform session = (result, after)) :
    after.randomness = session.randomness := h.view_eq hperform

theorem Reads.keeps {σ : Type} {view : Session → σ} {action : Action α} (h : action.Reads) :
    action.Keeps view :=
  fun session => congrArg view (h session)

end Action

end ServerPack
