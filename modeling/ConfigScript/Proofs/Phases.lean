import ConfigScript.Edit.Phase
import ConfigScript.Proofs.Edits
/-!
# The phases of an edit

`Editor.setValueByPhases` is `Editor.setValue` with every phase written down as it is entered. It
does the same (`setValueByPhases_run`): an edit that succeeds has entered the phases of its route in
their order, and one that fails stops in the phase that its error tells (`EditError.phase?`) and enters
`aborted` from there. With an engine that keeps the files that is never the phase that writes
(`setValue_error_phase`).
-/

namespace ConfigScript

/-- The phases of an edit that succeeds. -/
def Edit.Phase.route (backUp : Bool) : List Phase :=
  [reading, sanitizing, locating, instrumenting, verifying] ++ ((if backUp then [backingUp] else []) ++ [writing, done])

theorem Edit.Phase.route_sublist (backUp : Bool) : (route backUp).Sublist all := by
  cases backUp <;> decide

/-- The phase that an edit with this error fails in; other errors end no edit. -/
def EditError.phase? : EditError → Option Edit.Phase
  | invalidIdentifier _ | fileNotFound _ | access _ (.read _) => some .reading
  | inconsistent .reservedCharacter | inconsistent .reservedName => some .reading
  | notAssigned _ => some .locating
  | scriptFailed .. | invalidValue .. | inconsistent _ | unverified _ => some .verifying
  | access _ (.backUp _) | access _ (.list _) | access _ .fileName => some .backingUp
  | access _ (.write _) => some .writing
  | access _ (.restore ..) | variableNotFound _ | rollbackFailed .. | settings _ => none

/-- Masking, tracing and what is done cannot fail. -/
theorem EditError.mem_of_phase? {e : EditError} {p : Edit.Phase} (h : e.phase? = some p) :
    p ∈ [Edit.Phase.reading, .locating, .verifying, .backingUp, .writing] := by
  unfold EditError.phase? at h
  split at h <;> cases h <;> decide

namespace Editor

open Edit (Action Phase)

/-- An action that writes down the phases it enters. -/
abbrev PhasedAction (σ α : Type) := EStateM EditError (World σ × List Phase) α

variable {σ α β : Type}

/-- Enters a phase for an action. -/
def during (p : Phase) (action : Action σ α) : PhasedAction σ α := fun (w, entered) =>
  match action w with
  | .ok a w' => .ok a (w', entered ++ [p])
  | .error e w' => .error e (w', entered ++ [p])

/-- Reads a script that can be traced. -/
def openScript (path name : Text) : Action σ ScriptFile := do
  checkName name
  let file ← readFiles (ScriptFile.read · path)
  lift .inconsistent (Edit.checkTraceable file.content)
  return file

/-- `prepare`, phase by phase. -/
def prepareByPhases (engine : Engine σ) (path name value : Text) : PhasedAction σ (ScriptFile × Verified) := do
  let file ← during .reading (openScript path name)
  let masked ← during .sanitizing (pure (Edit.sanitize file.content))
  let occurrences ← during .locating (lift id (findOccurrences masked name))
  let traced ← during .instrumenting (pure (Edit.instrument masked occurrences))
  let verified ← during .verifying (verify engine file.content name occurrences traced value)
  return (file, verified)

/-- What `setValue` does with a prepared edit, phase by phase. -/
def commitByPhases (file : ScriptFile) (verified : Verified) (backUp : Bool) : PhasedAction σ (Option Backup) :=
  if backUp then do
    let backup ← during .backingUp (onFiles file.backup)
    during .writing (commit file verified)
    during .done (pure (some backup))
  else do
    during .writing (commit file verified)
    during .done (pure none)

/-- `setValue`, phase by phase. -/
def setValueByPhases (engine : Engine σ) (path name value : Text) (backUp : Bool) : PhasedAction σ (Option Backup) :=
  tryCatch
    (do
      let (file, verified) ← prepareByPhases engine path name value
      commitByPhases file verified backUp)
    fun e => during .aborted (throw e)

/-! ## Where an action fails -/

/-- Every error of the action tells this phase. -/
def FailsIn (p : Phase) (action : Action σ α) : Prop := Raises (fun e => e.phase? = some p) action

variable {p : Phase}

theorem failsIn_openScript (path name : Text) : FailsIn .reading (openScript path name : Action σ ScriptFile) := by
  unfold openScript
  refine Raises.bind (fun w e w' h => ?_) fun _ => ?_
  · obtain ⟨-, rfl, -⟩ := checkName_run_error.1 h
    rfl
  refine .bind (raises_readFiles fun fs e h => ?_) fun file => ?_
  · rcases scriptRead_error h with rfl | ⟨_, rfl⟩ <;> rfl
  refine .bind (raises_lift fun c h => ?_) fun _ => raises_pure _
  unfold Edit.checkTraceable at h
  split at h
  · cases h
    rfl
  · split at h <;> cases h
    rfl

/-- A traced run is not blamed for what the script holds. -/
theorem liveId_error {run : Workspace} {count : Nat} {fault : TraceFault} (h : Edit.liveId run count = .error fault) :
    (EditError.inconsistent fault).phase? = some .verifying := by
  unfold Edit.liveId at h
  rcases bind_eq_error.1 h with h | ⟨ids, -, h⟩
  · unfold Edit.tracedIds at h
    split at h
    · cases h
      rfl
    · cases h
    · split at h
      · cases h
        rfl
      · split at h <;> cases h
        rfl
    · cases h
      rfl
  · rcases bind_eq_error.1 h with h | ⟨_, -, h⟩
    · obtain ⟨x, -, hx⟩ := exists_of_mapM_eq_error h
      unfold Edit.idOf at hx
      split at hx <;> cases hx
      rfl
    · cases h

variable {engine : Engine σ}

theorem failsIn_verify (script name : Text) (occurrences : List Edit.Occurrence) (traced value : Text) :
    FailsIn .verifying (verify engine script name occurrences traced value) := by
  unfold verify resolveLive
  refine Raises.bind (.bind (raises_ask fun _ => rfl) fun _ => raises_lift fun _ => liveId_error) fun live => ?_
  refine .bind (raises_ask fun _ => rfl) fun expected => .bind (raises_ask fun _ => rfl) fun before => ?_
  split
  · rintro w e w' ⟨⟩
    rfl
  · exact .bind (raises_ask fun _ => rfl) fun after => .bind (raises_lift fun _ _ => rfl) fun _ => raises_pure _

theorem failsIn_backup (file : ScriptFile) : FailsIn .backingUp (onFiles file.backup : Action σ Backup) := by
  refine raises_onFiles fun fs e h => ?_
  rcases backup_error h with rfl | ⟨_, rfl⟩ | ⟨_, _, rfl⟩ <;> rfl

theorem failsIn_commit (file : ScriptFile) (verified : Verified) :
    FailsIn .writing (commit file verified : Action σ Unit) := by
  refine raises_onFiles fun fs e h => ?_
  rcases bind_eq_error.1 h with h | ⟨_, -, h⟩
  · unfold ScriptFile.write at h
    split at h <;> cases h
    rfl
  · cases h

/-! ## Phase by phase -/

/-- The phased action does what the action does. It enters these phases if it succeeds; if it fails it
stops in the one that the error tells. -/
structure Follows (phases : List Phase) (x : PhasedAction σ α) (action : Action σ α) : Prop where
  ok : ∀ {w a w'}, action w = .ok a w' → ∀ entered, x (w, entered) = .ok a (w', entered ++ phases)
  error : ∀ {w e w'}, action w = .error e w' → ∃ passed p, e.phase? = some p ∧ passed ++ [p] <+: phases ∧
    ∀ entered, x (w, entered) = .error e (w', entered ++ (passed ++ [p]))

theorem follows_pure (a : α) : Follows [] (pure a : PhasedAction σ α) (pure a) where
  ok := by
    rintro w _ _ ⟨⟩ entered
    rw [List.append_nil]
    rfl
  error := nofun

theorem follows_during {action : Action σ α} (h : FailsIn p action) : Follows [p] (during p action) action where
  ok hr entered := by simp only [during, hr]
  error hr := ⟨[], p, h hr, List.prefix_refl _, fun entered => by simp only [during, hr, List.nil_append]⟩

theorem Follows.bind {ps qs : List Phase} {x : PhasedAction σ α} {action : Action σ α} {f : α → PhasedAction σ β}
    {g : α → Action σ β} (hx : Follows ps x action) (hf : ∀ a, Follows qs (f a) (g a)) :
    Follows (ps ++ qs) (x >>= f) (action >>= g) where
  ok {w b w'} h entered := by
    obtain ⟨a, w₁, h₁, h₂⟩ := bind_run_ok.1 h
    refine bind_run_ok.2 ⟨a, _, hx.ok h₁ entered, ?_⟩
    rw [(hf a).ok h₂, List.append_assoc]
  error {w e w'} h := by
    rcases bind_run_error.1 h with h | ⟨a, w₁, h₁, h₂⟩
    · obtain ⟨passed, p, hp, hreached, hrun⟩ := hx.error h
      refine ⟨passed, p, hp, hreached.trans (List.prefix_append ps qs), fun entered => ?_⟩
      exact bind_run_error.2 (.inl (hrun entered))
    · obtain ⟨passed, p, hp, hreached, hrun⟩ := (hf a).error h₂
      refine ⟨ps ++ passed, p, hp, ?_, fun entered => ?_⟩
      · rw [List.append_assoc]
        exact (List.prefix_append_right_inj ps).2 hreached
      · refine bind_run_error.2 (.inr ⟨a, _, hx.ok h₁ entered, ?_⟩)
        rw [hrun]
        simp only [List.append_assoc]

theorem prepare_eq_openScript (engine : Engine σ) (path name value : Text) :
    prepare engine path name value = (do
      let file ← openScript path name
      let masked ← pure (Edit.sanitize file.content)
      let occurrences ← lift id (findOccurrences masked name)
      let traced ← pure (Edit.instrument masked occurrences)
      let verified ← verify engine file.content name occurrences traced value
      return (file, verified)) := by
  simp only [prepare, openScript, bind_assoc, pure_bind]

theorem prepareByPhases_follows (engine : Engine σ) (path name value : Text) :
    Follows [.reading, .sanitizing, .locating, .instrumenting, .verifying]
      (prepareByPhases engine path name value) (prepare engine path name value) := by
  rw [prepare_eq_openScript]
  refine .bind (follows_during (failsIn_openScript path name)) fun file => ?_
  refine .bind (follows_during (raises_pure _)) fun masked => ?_
  refine .bind (follows_during (raises_lift fun e h => findOccurrences_error h ▸ rfl)) fun occurrences => ?_
  refine .bind (follows_during (raises_pure _)) fun traced => ?_
  exact .bind (follows_during (failsIn_verify ..)) fun verified => follows_pure _

theorem commitByPhases_follows (file : ScriptFile) (verified : Verified) (backUp : Bool) :
    Follows ((if backUp then [.backingUp] else []) ++ [.writing, .done])
      (commitByPhases file verified backUp : PhasedAction σ (Option Backup))
      (if backUp then do
        let backup ← onFiles file.backup
        commit file verified
        return some backup
      else do
        commit file verified
        return none) := by
  have hcommit (b : Option Backup) : Follows [.writing, .done]
      (do during .writing (commit file verified); during .done (pure b) : PhasedAction σ (Option Backup))
      (do commit file verified; return b) :=
    .bind (follows_during (failsIn_commit file verified)) fun _ => follows_during (raises_pure b)
  cases backUp with
  | true => exact .bind (follows_during (failsIn_backup file)) fun backup => hcommit (some backup)
  | false => exact hcommit none

/-- An edit that succeeds enters the phases of its route one after the other. One that fails stops in the
phase that its error tells, the phases in front of it entered in their order, and is aborted. -/
theorem setValueByPhases_run (engine : Engine σ) (path name value : Text) (backUp : Bool) (w : World σ) :
    match setValue engine path name value backUp w with
    | .ok b w' => setValueByPhases engine path name value backUp (w, []) = .ok b (w', Phase.route backUp)
    | .error e w' => ∃ passed p, e.phase? = some p ∧ passed ++ [p] <+: Phase.route backUp ∧
        setValueByPhases engine path name value backUp (w, []) = .error e (w', passed ++ [p, .aborted]) := by
  -- it follows the edit up to its end or its failure; only the last phase of a failure is added behind that
  have hfollows := (prepareByPhases_follows engine path name value).bind
    fun edit => commitByPhases_follows edit.1 edit.2 backUp
  cases h : setValue engine path name value backUp w with
  | ok b w' => exact tryCatch_of_ok (hfollows.ok h [])
  | error e w' =>
    obtain ⟨passed, p, hp, hreached, hrun⟩ := hfollows.error h
    refine ⟨passed, p, hp, hreached, (tryCatch_of_error (hrun [])).trans ?_⟩
    simp only [during, throw_run, List.nil_append, List.append_assoc, List.cons_append]

/-- With an engine that keeps the files, an edit that fails does so before it writes. -/
theorem setValue_error_phase (he : engine.KeepsFiles) {path name value : Text} {backUp : Bool} {w w' : World σ}
    {e : EditError} (h : setValue engine path name value backUp w = .error e w') :
    ∃ p ∈ [Phase.reading, .locating, .verifying, .backingUp], e.phase? = some p := by
  rcases (setValue_run_error he).1 h with h | ⟨file, v, -, -, hb⟩
  · obtain ⟨passed, p, hp, hreached, -⟩ := (prepareByPhases_follows engine path name value).error h
    have hmem := hreached.subset (List.mem_append_right passed (List.mem_singleton_self p))
    have hblamed := EditError.mem_of_phase? hp
    -- of the phases up to verifying, those that some error tells
    refine ⟨p, ?_, hp⟩
    revert hmem hblamed
    cases p <;> decide
  · have hrun : onFiles file.backup w = .error e w := onFiles_run_of_error hb
    exact ⟨.backingUp, by decide, failsIn_backup file hrun⟩

end Editor

end ConfigScript
