import ServerPack.Proofs.Build.Stages
import ServerPack.Proofs.Placeholder.FileSubstitution

/-!
The write mode of a build cannot be seen afterwards. Every file that a mode writes more than once
can be read before, or has been written before, so each write but the last succeeds and is undone by
the next. So files (`outcome_substituteFile_eq`) and settings (`outcome_workingSettings_eq`) come
out the same in both modes, and with them the build (`run_perPlaceholder_eq_run_once`).
-/

namespace ServerPack.Build

open ServerPack.Action (outcome_bind outcome_bind_congr outcome_bind_of_perform outcome_bind_of_error)

theorem outcome_substituteFile_eq (mode mode' : WriteMode) (document : Settings.Document) (path : Path)
    (session : Session) :
    (substituteFile mode document.resolve path).outcome session =
      (substituteFile mode' document.resolve path).outcome session := by
  cases htext : session.files.textAt path with
  | ok text =>
      obtain ⟨location, content, hholds, -⟩ := FileSystem.exists_holdsFile_of_textAt htext
      rw [outcome_substituteFile mode document hholds, outcome_substituteFile mode' document hholds]
  | error fault =>
      have hread := outcome_readText path session
      rw [htext] at hread
      exact (outcome_bind_of_error hread).trans (outcome_bind_of_error hread).symm

theorem outcome_mapM_substituteFile_eq (mode mode' : WriteMode) (document : Settings.Document)
    (paths : List Path) (session : Session) :
    (paths.mapM (substituteFile mode document.resolve)).outcome session =
      (paths.mapM (substituteFile mode' document.resolve)).outcome session := by
  have hquiet : ∀ mode (paths : List Path), (paths.mapM (substituteFile mode document.resolve)).Quiet :=
    fun mode _ => .mapM fun path _ => quiet_substituteFile mode (Settings.quiet_resolve document) path
  induction paths generalizing session with
  | nil => rw [List.mapM_nil, List.mapM_nil]
  | cons path paths ih =>
      rw [List.mapM_cons, List.mapM_cons]
      refine outcome_bind_congr (fun _ => .bind (hquiet mode paths) fun _ => .pure _)
        (fun _ => .bind (hquiet mode' paths) fun _ => .pure _)
        (outcome_substituteFile_eq mode mode' document path session) fun count after _ => ?_
      exact outcome_bind_congr (fun _ => .pure _) (fun _ => .pure _) (ih _) fun _ _ _ => rfl

/-- A file whose writing has succeeded can be written again. -/
theorem exists_holdsFile_of_persistTo {path : Path} {text : Text} {session after : Session}
    (h : (persistTo path text).outcome session = (.ok (), after)) :
    ∃ location content, after.files.HoldsFile path location content := by
  rw [persistTo, Action.outcome_log_bind (Files.quiet_writeText path text), Action.outcome_eq_ok_iff] at h
  obtain ⟨noisy, hwrite, rfl⟩ := h
  obtain ⟨_, between, -, hchange⟩ := Action.bind_eq_ok_iff.1 hwrite
  obtain ⟨files, hwritten, rfl⟩ := Action.change_eq_ok_iff.1 hchange
  obtain ⟨location, -, -, -, hholds⟩ := FileSystem.holdsFile_of_writeContent hwritten
  exact ⟨location, _, hholds⟩

/-- The working copy of the settings is there before the first placeholder in it is replaced. -/
theorem outcome_workingSettings_eq (layout : Layout) (mode mode' : WriteMode) (session : Session) :
    (workingSettings layout mode).outcome session = (workingSettings layout mode').outcome session := by
  have hexpand := fun mode raw => Settings.quiet_expand mode (quiet_persistTo layout.resolvedSettings) raw
  have hcopy := quiet_readWorkingCopy layout
  rw [workingSettings_eq, workingSettings_eq]
  cases htext : session.files.textAt layout.settings with
  | error fault =>
      have hraw := outcome_readText layout.settings session
      rw [htext] at hraw
      exact (outcome_bind_of_error hraw).trans (outcome_bind_of_error hraw).symm
  | ok raw =>
      rw [outcome_bind_of_perform (perform_readText htext),
        outcome_bind_of_perform (perform_readText htext)]
      refine outcome_bind_congr (fun _ => .bind (hexpand mode raw) fun _ => hcopy)
        (fun _ => .bind (hexpand mode' raw) fun _ => hcopy) rfl fun _ after hafter => ?_
      obtain ⟨location, content, hholds⟩ := exists_holdsFile_of_persistTo hafter
      have hexpanded := (outcome_expand mode hholds raw).trans (outcome_expand mode' hholds raw).symm
      exact outcome_bind_congr (fun _ => hcopy) (fun _ => hcopy) hexpanded fun _ _ _ => rfl

theorem outcome_stage_eq (layout : Layout) (backup recursive : Bool) (mode mode' : WriteMode)
    (session : Session) :
    (stage layout ⟨backup, recursive, mode⟩).outcome session =
      (stage layout ⟨backup, recursive, mode'⟩).outcome session := by
  have hrenew := quiet_renew layout ⟨backup, recursive, mode⟩
  have hsettings := fun mode => quiet_workingSettings layout mode
  rw [stage, stage]
  refine outcome_bind_congr (fun _ => .bind (quiet_furnish layout) fun _ => .bind (hsettings mode) hrenew)
    (fun _ => .bind (quiet_furnish layout) fun _ => .bind (hsettings mode') hrenew) rfl
      fun _ started _ => ?_
  refine outcome_bind_congr (fun _ => .bind (hsettings mode) hrenew)
    (fun _ => .bind (hsettings mode') hrenew) rfl fun _ furnished _ => ?_
  exact outcome_bind_congr hrenew hrenew (outcome_workingSettings_eq layout mode mode' furnished)
    fun _ _ _ => rfl

/-- The result of a build, the file system that it leaves and the randomness that it leaves do not
depend on when substituted bodies are written. -/
theorem run_perPlaceholder_eq_run_once (layout : Layout) (backup recursive : Bool) (session : Session) :
    let each := (run layout ⟨backup, recursive, .perPlaceholder⟩).perform session
    let once := (run layout ⟨backup, recursive, .once⟩).perform session
    each.1 = once.1 ∧ each.2.files = once.2.files ∧ each.2.randomness = once.2.randomness := by
  have houtcome : (run layout ⟨backup, recursive, .perPlaceholder⟩).outcome session =
      (run layout ⟨backup, recursive, .once⟩).outcome session := by
    rw [run_eq_stage_bind, run_eq_stage_bind]
    refine outcome_bind_congr (quiet_finish _) (quiet_finish _) (outcome_stage_eq _ _ _ _ _ session) ?_
    intro staged after _
    exact outcome_bind_congr (fun _ => .bind (.log _ _) fun _ => .pure _)
      (fun _ => .bind (.log _ _) fun _ => .pure _)
      (outcome_mapM_substituteFile_eq _ _ staged.settings staged.files after) fun _ _ _ => rfl
  obtain ⟨hresult, hsession⟩ := Prod.ext_iff.1 houtcome
  exact ⟨hresult, (Session.mk.inj hsession).1, (Session.mk.inj hsession).2.1⟩

end ServerPack.Build
