import ConfigScript.Editor
import ConfigScript.Proofs.Files
/-!
# What an edit consists of

An edit is a chain of actions. For every link there is a lemma about its success and one about
its failure. What holds of every link holds of the chain: preparing an edit keeps the files, and
it never ends in a failed rollback (`careful_prepare`).
-/

namespace ConfigScript

/-- The engine leaves the files alone, whatever it answers. -/
structure Engine.KeepsFiles {σ : Type} (engine : Engine σ) : Prop where
  execute : ∀ script w, (engine.execute script w).2.files = w.files
  evaluate : ∀ expression w, (engine.evaluate expression w).2.files = w.files

theorem Runner.engine_keepsFiles {σ : Type} (r : Runner) : (r.engine : Engine σ).KeepsFiles :=
  ⟨fun _ _ => rfl, fun _ _ => rfl⟩

/-- The runner without settings. -/
def Runner.plain : Runner := ⟨{}, [], []⟩

/-- A batch failed and its backup could not be put back either. -/
def EditError.IsRollback : EditError → Prop
  | rollbackFailed .. => True
  | _ => False

namespace Editor

open Edit (Action)

variable {σ α β : Type}

/-! ## Running chains -/

def succeeded : EStateM.Result EditError (World σ) α → Bool
  | .ok .. => true
  | .error .. => false

theorem exists_of_succeeded {r : EStateM.Result EditError (World σ) α} (h : succeeded r = true) :
    ∃ a w, r = .ok a w := by
  cases r with
  | ok a w => exact ⟨a, w, rfl⟩
  | error e w => cases h

theorem exists_of_failed {r : EStateM.Result EditError (World σ) α} (h : succeeded r = false) :
    ∃ e w, r = .error e w := by
  cases r with
  | ok a w => cases h
  | error e w => exact ⟨e, w, rfl⟩

/-- The result of an action that succeeds. -/
def outcome? : EStateM.Result EditError (World σ) α → Option α
  | .ok a _ => some a
  | .error .. => none

/-- The world that an action leaves behind. -/
def worldAfter : EStateM.Result EditError (World σ) α → World σ
  | .ok _ w => w
  | .error _ w => w

theorem outcome?_eq_some {r : EStateM.Result EditError (World σ) α} {a : α} :
    outcome? r = some a ↔ ∃ w, r = .ok a w := by
  cases r with
  | ok b w => simp [outcome?, eq_comm]
  | error e w => simp [outcome?]

theorem bind_run_ok {ε τ : Type} {x : EStateM ε τ α} {f : α → EStateM ε τ β} {w w' : τ} {b : β} :
    (x >>= f) w = .ok b w' ↔ ∃ a w₁, x w = .ok a w₁ ∧ f a w₁ = .ok b w' := by
  cases h : x w with
  | ok a w₁ => simp [bind, EStateM.bind, h, and_assoc]
  | error e w₁ => simp [bind, EStateM.bind, h]

theorem bind_run_error {ε τ : Type} {x : EStateM ε τ α} {f : α → EStateM ε τ β} {w w' : τ} {e : ε} :
    (x >>= f) w = .error e w' ↔
      x w = .error e w' ∨ ∃ a w₁, x w = .ok a w₁ ∧ f a w₁ = .error e w' := by
  cases h : x w with
  | ok a w₁ => simp [bind, EStateM.bind, h, and_assoc]
  | error e w₁ => simp [bind, EStateM.bind, h]

@[simp] theorem pure_run (a : α) (w : World σ) : (pure a : Action σ α) w = .ok a w := rfl

@[simp] theorem throw_run (e : EditError) (w : World σ) : (throw e : Action σ α) w = .error e w := rfl

theorem lift_run_ok {ε : Type} {wrap : ε → EditError} {x : Except ε α} {w w' : World σ} {a : α} :
    (lift wrap x : Action σ α) w = .ok a w' ↔ x = .ok a ∧ w' = w := by
  cases x <;> simp [lift, eq_comm]

theorem lift_run_error {ε : Type} {wrap : ε → EditError} {x : Except ε α} {w w' : World σ}
    {e : EditError} :
    (lift wrap x : Action σ α) w = .error e w' ↔ ∃ c, x = .error c ∧ e = wrap c ∧ w' = w := by
  cases x <;> simp [lift, eq_comm]

theorem readFiles_run (f : FileSystem → Except EditError α) (w : World σ) :
    readFiles f w = (lift id (f w.files) : Action σ α) w := rfl

theorem onFiles_run_of_ok {f : FileSystem → Except EditError (α × FileSystem)} {w : World σ} {a : α}
    {files : FileSystem} (h : f w.files = .ok (a, files)) : onFiles f w = .ok a { w with files } := by
  have hrun : onFiles f w = (lift id (f w.files) >>= fun p => do
      set { w with files := p.2 }
      return p.1 : Action σ α) w := rfl
  rw [hrun, h]
  rfl

theorem onFiles_run_of_error {f : FileSystem → Except EditError (α × FileSystem)} {w : World σ} {e : EditError}
    (h : f w.files = .error e) : onFiles f w = .error e w := by
  have hrun : onFiles f w = (lift id (f w.files) >>= fun p => do
      set { w with files := p.2 }
      return p.1 : Action σ α) w := rfl
  rw [hrun, h]
  rfl

theorem onFiles_run_ok {f : FileSystem → Except EditError (α × FileSystem)} {w w' : World σ} {a : α} :
    onFiles f w = .ok a w' ↔ ∃ files, f w.files = .ok (a, files) ∧ w' = { w with files } := by
  cases h : f w.files with
  | ok p =>
    rw [onFiles_run_of_ok (a := p.1) h]
    grind
  | error e => simp [onFiles_run_of_error h]

theorem onFiles_run_error {f : FileSystem → Except EditError (α × FileSystem)} {w w' : World σ}
    {e : EditError} : onFiles f w = .error e w' ↔ f w.files = .error e ∧ w' = w := by
  cases h : f w.files with
  | ok p => simp [onFiles_run_of_ok (a := p.1) h]
  | error e => simp [onFiles_run_of_error h, eq_comm]

/-- A question to the engine: its answer counts, and the world is as the engine leaves it. -/
def ask {ε : Type} (wrap : ε → EditError) (question : World σ → Except ε α × World σ) : Action σ α := do
  let (answer, w) := question (← get)
  set w
  lift wrap answer

theorem ask_run {ε : Type} (wrap : ε → EditError) (question : World σ → Except ε α × World σ)
    (w : World σ) : ask wrap question w = lift wrap (question w).1 (question w).2 := rfl

theorem ask_run_ok {ε : Type} {wrap : ε → EditError} {question : World σ → Except ε α × World σ}
    {w w' : World σ} {a : α} : ask wrap question w = .ok a w' ↔ question w = (.ok a, w') := by
  rw [ask_run, lift_run_ok, Prod.ext_iff, eq_comm (a := w')]

theorem ask_run_error {ε : Type} {wrap : ε → EditError} {question : World σ → Except ε α × World σ}
    {w w' : World σ} {e : EditError} :
    ask wrap question w = .error e w' ↔ ∃ cause, question w = (.error cause, w') ∧ e = wrap cause := by
  rw [ask_run, lift_run_error]
  grind

theorem execute_eq_ask (engine : Engine σ) (stage : Stage) (script : Text) :
    execute engine stage script = ask (.scriptFailed stage) (engine.execute script) := rfl

theorem evaluate_eq_ask (engine : Engine σ) (expression : Text) :
    evaluate engine expression = ask (.invalidValue expression) (engine.evaluate expression) := rfl

theorem checkName_run_ok {name : Text} {w w' : World σ} {u : Unit} :
    checkName name w = .ok u w' ↔ isIdentifier name = true ∧ w' = w := by
  by_cases h : isIdentifier name <;> simp [checkName, h, eq_comm]

theorem checkName_run_error {name : Text} {w w' : World σ} {e : EditError} :
    checkName name w = .error e w' ↔
      isIdentifier name = false ∧ e = .invalidIdentifier name ∧ w' = w := by
  by_cases h : isIdentifier name <;> simp [checkName, h, eq_comm]

/-! ## Errors -/

/-- Every error of the action has the property. -/
def Raises (P : EditError → Prop) (action : Action σ α) : Prop := ∀ ⦃w e w'⦄, action w = .error e w' → P e

section

variable {P : EditError → Prop}

theorem raises_pure (a : α) : Raises P (pure a : Action σ α) := nofun

theorem raises_throw {e : EditError} (h : P e) : Raises P (throw e : Action σ α) := by
  rintro w _ _ ⟨⟩
  exact h

theorem Raises.bind {x : Action σ α} {f : α → Action σ β} (hx : Raises P x) (hf : ∀ a, Raises P (f a)) :
    Raises P (x >>= f) := by
  intro w e w' h
  rcases bind_run_error.1 h with h | ⟨a, w₁, -, h⟩
  · exact hx h
  · exact hf a h

theorem raises_lift {ε : Type} {wrap : ε → EditError} {x : Except ε α} (h : ∀ c, x = .error c → P (wrap c)) :
    Raises P (lift wrap x : Action σ α) := by
  intro w e w' he
  obtain ⟨c, hc, rfl, -⟩ := lift_run_error.1 he
  exact h c hc

theorem raises_readFiles {f : FileSystem → Except EditError α} (h : ∀ fs e, f fs = .error e → P e) :
    Raises P (readFiles f : Action σ α) := fun w _ _ he =>
  raises_lift (h w.files) (readFiles_run f w ▸ he)

theorem raises_onFiles {f : FileSystem → Except EditError (α × FileSystem)} (h : ∀ fs e, f fs = .error e → P e) :
    Raises P (onFiles f : Action σ α) := fun _ _ _ he =>
  h _ _ (onFiles_run_error.1 he).1

theorem raises_ask {ε : Type} {wrap : ε → EditError} {question : World σ → Except ε α × World σ}
    (h : ∀ c, P (wrap c)) : Raises P (ask wrap question) := by
  intro w e w' he
  obtain ⟨c, -, rfl⟩ := ask_run_error.1 he
  exact h c

end

/-! ## Careful actions -/

/-- An action that keeps the files and does not end in a failed rollback. -/
structure Careful (x : Action σ α) : Prop where
  files_ok : ∀ {w a w'}, x w = .ok a w' → w'.files = w.files
  files_error : ∀ {w e w'}, x w = .error e w' → w'.files = w.files
  error : Raises (¬ ·.IsRollback) x

theorem careful_pure (a : α) : Careful (pure a : Action σ α) where
  files_ok h := by cases h; rfl
  files_error h := by cases h
  error := raises_pure a

theorem careful_throw {e : EditError} (h : ¬ e.IsRollback) : Careful (throw e : Action σ α) where
  files_ok h := by cases h
  files_error h := by cases h; rfl
  error := raises_throw h

theorem Careful.bind {x : Action σ α} {f : α → Action σ β} (hx : Careful x)
    (hf : ∀ a, Careful (f a)) : Careful (x >>= f) where
  files_ok h := by
    obtain ⟨a, w₁, h₁, h₂⟩ := bind_run_ok.1 h
    exact ((hf a).files_ok h₂).trans (hx.files_ok h₁)
  files_error h := by
    rcases bind_run_error.1 h with h | ⟨a, w₁, h₁, h₂⟩
    · exact hx.files_error h
    · exact ((hf a).files_error h₂).trans (hx.files_ok h₁)
  error := hx.error.bind fun a => (hf a).error

theorem careful_lift {ε : Type} {wrap : ε → EditError} {x : Except ε α}
    (h : ∀ c, x = .error c → ¬ (wrap c).IsRollback) : Careful (lift wrap x : Action σ α) := by
  cases x with
  | ok a => exact careful_pure a
  | error c => exact careful_throw (h c rfl)

theorem careful_readFiles {f : FileSystem → Except EditError α}
    (h : ∀ fs e, f fs = .error e → ¬ e.IsRollback) : Careful (readFiles f : Action σ α) where
  files_ok {w _ _} hr := (careful_lift (h w.files)).files_ok (readFiles_run f w ▸ hr)
  files_error {w _ _} hr := (careful_lift (h w.files)).files_error (readFiles_run f w ▸ hr)
  error := raises_readFiles h

theorem careful_ask {ε : Type} {wrap : ε → EditError} {question : World σ → Except ε α × World σ}
    (hq : ∀ w, (question w).2.files = w.files) (hw : ∀ c, ¬ (wrap c).IsRollback) :
    Careful (ask wrap question) where
  files_ok {w _ _} h := by
    rw [ask_run_ok] at h
    simpa [h] using hq w
  files_error {w _ _} h := by
    obtain ⟨c, h, -⟩ := ask_run_error.1 h
    simpa [h] using hq w
  error := raises_ask hw

theorem careful_checkName (name : Text) : Careful (checkName name : Action σ Unit) := by
  unfold checkName
  split
  · exact careful_pure ()
  · exact careful_throw id

theorem scriptRead_error {fs : FileSystem} {path : Text} {e : EditError}
    (h : ScriptFile.read fs path = .error e) :
    e = .fileNotFound path ∨ ∃ fault, e = .access path (.read fault) := by
  unfold ScriptFile.read at h
  split at h
  · split at h <;> cases h
    exact .inr ⟨_, rfl⟩
  · cases h
    exact .inl rfl

theorem findOccurrences_error {masked name : Text} {e : EditError}
    (h : findOccurrences masked name = .error e) : e = .notAssigned name := by
  unfold findOccurrences at h
  split at h <;> cases h
  rfl

variable {engine : Engine σ}

theorem careful_verify (he : engine.KeepsFiles) (script name : Text)
    (occurrences : List Edit.Occurrence) (traced value : Text) :
    Careful (verify engine script name occurrences traced value) := by
  unfold verify resolveLive
  refine .bind (.bind (careful_ask (he.execute _) fun _ => id) fun _ => careful_lift fun _ _ => id) fun live => ?_
  refine .bind (careful_ask (he.evaluate _) fun _ => id) fun expected => ?_
  refine .bind (careful_ask (he.execute _) fun _ => id) fun before => ?_
  split
  · exact careful_throw id
  · refine .bind (careful_ask (he.execute _) fun _ => id) fun after => ?_
    exact .bind (careful_lift fun _ _ => id) fun _ => careful_pure _

/-- An edit is prepared without touching a file. -/
theorem careful_prepare (he : engine.KeepsFiles) (path name value : Text) :
    Careful (prepare engine path name value) := by
  unfold prepare
  refine .bind (careful_checkName name) fun _ => ?_
  refine .bind (careful_readFiles fun fs e h => ?_) fun file => ?_
  · rcases scriptRead_error h with rfl | ⟨_, rfl⟩ <;> exact id
  refine .bind (careful_lift fun _ _ => id) fun _ => ?_
  refine .bind (careful_lift fun e h => findOccurrences_error h ▸ id) fun occurrences => ?_
  exact .bind (careful_verify he _ _ _ _ _) fun _ => careful_pure _

end Editor

end ConfigScript
