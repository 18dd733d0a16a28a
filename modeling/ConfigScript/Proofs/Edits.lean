import ConfigScript.Proofs.Actions
/-!
# Edits and batches

`prepare_run_ok` and `verify_run_ok` say which gates a prepared edit has passed. An edit that
succeeds has written its candidate, after the backup if there is one (`setValue_run_ok`); an edit
that fails has written nothing (`setValue_error_files`). A batch is a chain of edits, and the
first of them is an edit with a backup (`setAll_run_ok`, `setAll_run_error`).
-/

namespace ConfigScript

namespace Editor

open Edit (Action)

variable {σ α : Type} {engine : Engine σ}

/-! ## The gates of an edit -/

theorem resolveLive_run_ok {traced : Text} {count live : Nat} {w w' : World σ} :
    resolveLive engine traced count w = .ok live w' ↔
      ∃ run, engine.execute traced w = (.ok run, w') ∧ Edit.liveId run count = .ok live := by
  unfold resolveLive
  rw [bind_run_ok]
  constructor
  · rintro ⟨run, w₁, h₁, h₂⟩
    obtain ⟨hl, rfl⟩ := lift_run_ok.1 h₂
    exact ⟨run, ask_run_ok.1 h₁, hl⟩
  · rintro ⟨run, h, hl⟩
    exact ⟨run, w', ask_run_ok.2 h, lift_run_ok.2 ⟨hl, rfl⟩⟩

/-- The comparison is passed if the engine runs the traced script, the value, the script and the
candidate, the trace names an occurrence, and the variables are what they should be. -/
theorem verify_run_ok {script name traced value : Text} {occurrences : List Edit.Occurrence}
    {w w' : World σ} {v : Verified} :
    verify engine script name occurrences traced value w = .ok v w' ↔
      ∃ run w₁ w₂ before w₃ o after,
        engine.execute traced w = (.ok run, w₁) ∧
        Edit.liveId run occurrences.length = .ok v.live ∧
        engine.evaluate (Edit.normalize value) w₁ = (.ok v.value, w₂) ∧
        engine.execute script w₂ = (.ok before, w₃) ∧
        occurrences.find? (·.id = v.live) = some o ∧
        v.candidate = Edit.splice script o value ∧
        engine.execute v.candidate w₃ = (.ok after, w') ∧
        Edit.compare before after name v.value = .ok () := by
  unfold verify
  constructor
  · intro h
    rw [bind_run_ok] at h
    obtain ⟨live, w₁, h₁, h⟩ := h
    rw [bind_run_ok] at h
    obtain ⟨expected, w₂, h₂, h⟩ := h
    rw [bind_run_ok] at h
    obtain ⟨before, w₃, h₃, h⟩ := h
    obtain ⟨run, hrun, hlive⟩ := resolveLive_run_ok.1 h₁
    cases ho : occurrences.find? (·.id = live) with
    | none => simp [ho] at h
    | some o =>
      simp only [ho] at h
      rw [bind_run_ok] at h
      obtain ⟨after, w₄, h₄, h⟩ := h
      rw [bind_run_ok] at h
      obtain ⟨_, w₅, h₅, h⟩ := h
      obtain ⟨hc, rfl⟩ := lift_run_ok.1 h₅
      obtain ⟨rfl, rfl⟩ := by simpa using h
      exact ⟨run, w₁, w₂, before, w₃, o, after, hrun, hlive, ask_run_ok.1 h₂, ask_run_ok.1 h₃, ho, rfl,
        ask_run_ok.1 h₄, hc⟩
  · obtain ⟨live, expected, candidate⟩ := v
    rintro ⟨run, w₁, w₂, before, w₃, o, after, hrun, hlive, h₂, h₃, ho, rfl, h₄, hc⟩
    refine bind_run_ok.2 ⟨live, w₁, resolveLive_run_ok.2 ⟨run, hrun, hlive⟩, ?_⟩
    refine bind_run_ok.2 ⟨expected, w₂, ask_run_ok.2 h₂, ?_⟩
    refine bind_run_ok.2 ⟨before, w₃, ask_run_ok.2 h₃, ?_⟩
    simp only at ho
    simp only [ho]
    refine bind_run_ok.2 ⟨after, w', ask_run_ok.2 h₄, ?_⟩
    exact bind_run_ok.2 ⟨(), w', lift_run_ok.2 ⟨hc, rfl⟩, rfl⟩

theorem findOccurrences_eq_ok {masked name : Text} {occurrences : List Edit.Occurrence} :
    findOccurrences masked name = .ok occurrences ↔
      occurrences = Edit.Occurrence.find masked name ∧ occurrences ≠ [] := by
  unfold findOccurrences
  split <;> grind

/-- What an edit and a location begin with: a name, and a script that can be read, traced and has an occurrence
of it. -/
def gated {α : Type} (path name : Text) (next : ScriptFile → List Edit.Occurrence → Action σ α) : Action σ α := do
  checkName name
  let file ← readFiles (ScriptFile.read · path)
  lift .inconsistent (Edit.checkTraceable file.content)
  let occurrences ← lift id (findOccurrences (Edit.sanitize file.content) name)
  next file occurrences

theorem prepare_eq_gated (engine : Engine σ) (path name value : Text) :
    prepare engine path name value = gated path name fun file occurrences => do
      let verified ← verify engine file.content name occurrences
        (Edit.instrument (Edit.sanitize file.content) occurrences) value
      return (file, verified) := rfl

/-- An occurrence as it is reported. -/
def located (script : Text) (o : Edit.Occurrence) : LocatedOccurrence :=
  ⟨o.id, o.start, o.stop, o.line script, o.text script⟩

theorem locate_eq_gated (engine : Engine σ) (path name : Text) :
    locate engine path name = gated path name fun file occurrences => do
      let live ← resolveLive engine (Edit.instrument (Edit.sanitize file.content) occurrences) occurrences.length
      return ⟨name, occurrences.map (located file.content), live⟩ := rfl

theorem gated_run_ok {α : Type} {path name : Text} {next : ScriptFile → List Edit.Occurrence → Action σ α} {a : α}
    {w w' : World σ} :
    gated path name next w = .ok a w' ↔
      isIdentifier name = true ∧ ∃ file, ScriptFile.read w.files path = .ok file ∧
        Edit.checkTraceable file.content = .ok () ∧ Edit.Occurrence.find (Edit.sanitize file.content) name ≠ [] ∧
        next file (Edit.Occurrence.find (Edit.sanitize file.content) name) w = .ok a w' := by
  unfold gated
  constructor
  · intro h
    rw [bind_run_ok] at h
    obtain ⟨_, w₁, h₁, h⟩ := h
    obtain ⟨hname, rfl⟩ := checkName_run_ok.1 h₁
    rw [bind_run_ok] at h
    obtain ⟨file, w₂, h₂, h⟩ := h
    rw [readFiles_run] at h₂
    obtain ⟨hread, rfl⟩ := lift_run_ok.1 h₂
    rw [bind_run_ok] at h
    obtain ⟨_, w₃, h₃, h⟩ := h
    obtain ⟨htrace, rfl⟩ := lift_run_ok.1 h₃
    rw [bind_run_ok] at h
    obtain ⟨occurrences, w₄, h₄, h⟩ := h
    obtain ⟨hfind, rfl⟩ := lift_run_ok.1 h₄
    obtain ⟨rfl, hne⟩ := findOccurrences_eq_ok.1 hfind
    exact ⟨hname, file, hread, htrace, hne, h⟩
  · rintro ⟨hname, file, hread, htrace, hne, h⟩
    refine bind_run_ok.2 ⟨(), w, checkName_run_ok.2 ⟨hname, rfl⟩, ?_⟩
    refine bind_run_ok.2 ⟨file, w, readFiles_run _ w ▸ lift_run_ok.2 ⟨hread, rfl⟩, ?_⟩
    refine bind_run_ok.2 ⟨(), w, lift_run_ok.2 ⟨htrace, rfl⟩, ?_⟩
    exact bind_run_ok.2 ⟨_, w, lift_run_ok.2 ⟨findOccurrences_eq_ok.2 ⟨rfl, hne⟩, rfl⟩, h⟩

/-- It fails at one of the gates, which change nothing, or behind them. -/
theorem gated_run_error {α : Type} {path name : Text} {next : ScriptFile → List Edit.Occurrence → Action σ α}
    {w w' : World σ} {e : EditError} (h : gated path name next w = .error e w') :
    w' = w ∨ ∃ file, ScriptFile.read w.files path = .ok file ∧
      Edit.Occurrence.find (Edit.sanitize file.content) name ≠ [] ∧
      next file (Edit.Occurrence.find (Edit.sanitize file.content) name) w = .error e w' := by
  unfold gated at h
  rw [bind_run_error] at h
  rcases h with h | ⟨_, w₁, h₁, h⟩
  · exact .inl (checkName_run_error.1 h).2.2
  obtain ⟨-, rfl⟩ := checkName_run_ok.1 h₁
  rw [bind_run_error, readFiles_run] at h
  rcases h with h | ⟨file, w₂, h₂, h⟩
  · obtain ⟨_, -, -, hw⟩ := lift_run_error.1 h
    exact .inl hw
  obtain ⟨hread, rfl⟩ := lift_run_ok.1 h₂
  rw [bind_run_error] at h
  rcases h with h | ⟨_, w₃, h₃, h⟩
  · obtain ⟨_, -, -, hw⟩ := lift_run_error.1 h
    exact .inl hw
  obtain ⟨-, rfl⟩ := lift_run_ok.1 h₃
  rw [bind_run_error] at h
  rcases h with h | ⟨_, w₄, h₄, h⟩
  · obtain ⟨_, -, -, hw⟩ := lift_run_error.1 h
    exact .inl hw
  obtain ⟨hf, rfl⟩ := lift_run_ok.1 h₄
  obtain ⟨rfl, hne⟩ := findOccurrences_eq_ok.1 hf
  exact .inr ⟨file, hread, hne, h⟩

/-- An edit is prepared if its name is one, its script can be read, traced and has an occurrence
of the name, and the comparison is passed. -/
theorem prepare_run_ok {path name value : Text} {w w' : World σ} {file : ScriptFile} {v : Verified} :
    prepare engine path name value w = .ok (file, v) w' ↔
      isIdentifier name = true ∧ ScriptFile.read w.files path = .ok file ∧
      Edit.checkTraceable file.content = .ok () ∧
      Edit.Occurrence.find (Edit.sanitize file.content) name ≠ [] ∧
      verify engine file.content name (Edit.Occurrence.find (Edit.sanitize file.content) name)
        (Edit.instrument (Edit.sanitize file.content)
          (Edit.Occurrence.find (Edit.sanitize file.content) name)) value w = .ok v w' := by
  rw [prepare_eq_gated, gated_run_ok]
  constructor
  · rintro ⟨hname, read, hread, htrace, hne, h⟩
    obtain ⟨verified, w₁, hv, h⟩ := bind_run_ok.1 h
    cases h
    exact ⟨hname, hread, htrace, hne, hv⟩
  · rintro ⟨hname, hread, htrace, hne, hv⟩
    exact ⟨hname, file, hread, htrace, hne, bind_run_ok.2 ⟨v, w', hv, rfl⟩⟩

/-- Locating passes the gates of an edit up to the traced run. -/
theorem locate_run_ok {path name : Text} {w w' : World σ} {a : LiveAssignment} :
    locate engine path name w = .ok a w' ↔
      isIdentifier name = true ∧ ∃ file live, ScriptFile.read w.files path = .ok file ∧
      Edit.checkTraceable file.content = .ok () ∧
      Edit.Occurrence.find (Edit.sanitize file.content) name ≠ [] ∧
      resolveLive engine (Edit.instrument (Edit.sanitize file.content)
        (Edit.Occurrence.find (Edit.sanitize file.content) name))
        (Edit.Occurrence.find (Edit.sanitize file.content) name).length w = .ok live w' ∧
      a = ⟨name, (Edit.Occurrence.find (Edit.sanitize file.content) name).map (located file.content), live⟩ := by
  rw [locate_eq_gated, gated_run_ok]
  constructor
  · rintro ⟨hname, file, hread, htrace, hne, h⟩
    obtain ⟨live, w₁, hlive, h⟩ := bind_run_ok.1 h
    cases h
    exact ⟨hname, file, live, hread, htrace, hne, hlive, rfl⟩
  · rintro ⟨hname, file, live, hread, htrace, hne, hlive, rfl⟩
    exact ⟨hname, file, hread, htrace, hne, bind_run_ok.2 ⟨live, w', hlive, rfl⟩⟩

/-- An edit that cannot be prepared fails before the engine is called, or in the comparison. -/
theorem prepare_run_error {path name value : Text} {w w' : World σ} {e : EditError}
    (h : prepare engine path name value w = .error e w') :
    w' = w ∨ ∃ file, ScriptFile.read w.files path = .ok file ∧
      Edit.Occurrence.find (Edit.sanitize file.content) name ≠ [] ∧
      verify engine file.content name (Edit.Occurrence.find (Edit.sanitize file.content) name)
        (Edit.instrument (Edit.sanitize file.content)
          (Edit.Occurrence.find (Edit.sanitize file.content) name)) value w = .error e w' := by
  rw [prepare_eq_gated] at h
  refine (gated_run_error h).imp_right ?_
  rintro ⟨file, hread, hne, h⟩
  rcases bind_run_error.1 h with h | ⟨_, w₁, -, h⟩
  · exact ⟨file, hread, hne, h⟩
  · cases h

/-! ## What is written -/

theorem commit_run {file : ScriptFile} {v : Verified} {w : World σ} {l : Location} {old : Text}
    (h : ScriptFile.At w.files file.path l old) :
    commit file v w = .ok () ⟨w.files.put l (.file (ScriptFile.encode v.candidate.endLastLine)), w.engine⟩ := by
  refine onFiles_run_ok.2 ⟨_, ?_, rfl⟩
  simp [ScriptFile.write_of_at h, bind, Except.bind, pure, Except.pure]

/-- What a backup leaves on disk, if one is asked for. -/
inductive Saved (file : ScriptFile) (fs : FileSystem) : Bool → Option Backup → FileSystem → Prop
  | skipped : Saved file fs false none fs
  | taken {b : Backup} {saved : FileSystem} :
    file.backup fs = .ok (b, saved) → Saved file fs true (some b) saved

theorem Saved.at {file : ScriptFile} {fs saved : FileSystem} {backUp : Bool} {b : Option Backup}
    (h : Saved file fs backUp b saved) {path : Text} {l : Location} {content : Text}
    (ha : ScriptFile.At fs path l content) : ScriptFile.At saved path l content := by
  cases h with
  | skipped => exact ha
  | taken h =>
    obtain ⟨k, hk, rfl, -, -, -⟩ := ScriptFile.backup_eq_ok h
    exact FileSystem.find_put_new hk ha _

/-- What a script was read from, in the world after the edit is prepared. -/
theorem at_of_prepare (he : engine.KeepsFiles) {path name value : Text} {w w₁ : World σ}
    {file : ScriptFile} {v : Verified} (h : prepare engine path name value w = .ok (file, v) w₁) :
    w₁.files = w.files ∧ file.path = path ∧ ∃ l, ScriptFile.At w.files path l file.content := by
  obtain ⟨hp, l, hl⟩ := ScriptFile.read_eq_ok.1 (prepare_run_ok.1 h).2.1
  exact ⟨(careful_prepare he path name value).files_ok h, hp, l, hl⟩

/-- An edit that succeeds is a prepared one whose candidate is written, after the backup. -/
theorem setValue_run_ok (he : engine.KeepsFiles) {path name value : Text} {backUp : Bool}
    {w w' : World σ} {b : Option Backup} :
    setValue engine path name value backUp w = .ok b w' ↔
      ∃ file v w₁ l saved, prepare engine path name value w = .ok (file, v) w₁ ∧
        ScriptFile.At w.files path l file.content ∧ Saved file w.files backUp b saved ∧
        w' = ⟨saved.put l (.file (ScriptFile.encode v.candidate.endLastLine)), w₁.engine⟩ := by
  unfold setValue
  constructor
  · intro h
    rw [bind_run_ok] at h
    obtain ⟨⟨file, v⟩, w₁, h₁, h⟩ := h
    obtain ⟨hfiles, hpath, l, hl⟩ := at_of_prepare he h₁
    refine ⟨file, v, w₁, l, ?_⟩
    cases backUp with
    | true =>
      simp only [if_true] at h
      rw [bind_run_ok] at h
      obtain ⟨backup, w₂, h₂, h⟩ := h
      obtain ⟨saved, hs, rfl⟩ := onFiles_run_ok.1 h₂
      rw [hfiles] at hs
      have hsaved := Saved.taken hs
      rw [bind_run_ok] at h
      obtain ⟨_, w₃, h₃, h⟩ := h
      rw [commit_run (hpath ▸ hsaved.at hl)] at h₃
      cases h₃
      cases h
      exact ⟨saved, h₁, hl, hsaved, rfl⟩
    | false =>
      simp only [Bool.false_eq_true, if_false] at h
      rw [bind_run_ok] at h
      obtain ⟨_, w₂, h₂, h⟩ := h
      rw [commit_run (hfiles ▸ hpath ▸ hl)] at h₂
      cases h₂
      cases h
      exact ⟨w₁.files, h₁, hl, hfiles ▸ .skipped, rfl⟩
  · rintro ⟨file, v, w₁, l, saved, h₁, hl, hs, rfl⟩
    obtain ⟨hfiles, hpath, -⟩ := at_of_prepare he h₁
    refine bind_run_ok.2 ⟨_, _, h₁, ?_⟩
    have ha := hpath ▸ hs.at hl
    cases hs with
    | taken hs =>
      refine bind_run_ok.2 ⟨_, _, onFiles_run_ok.2 ⟨saved, hfiles ▸ hs, rfl⟩, ?_⟩
      exact bind_run_ok.2 ⟨(), _, commit_run ha, rfl⟩
    | skipped => exact bind_run_ok.2 ⟨(), _, hfiles ▸ commit_run (hfiles ▸ ha), rfl⟩

/-- An edit that fails does so before the first change of a file. -/
theorem setValue_run_error (he : engine.KeepsFiles) {path name value : Text} {backUp : Bool}
    {w w' : World σ} {e : EditError} :
    setValue engine path name value backUp w = .error e w' ↔
      prepare engine path name value w = .error e w' ∨
      ∃ file v, prepare engine path name value w = .ok (file, v) w' ∧ backUp = true ∧
        file.backup w.files = .error e := by
  unfold setValue
  rw [bind_run_error]
  refine or_congr_right ?_
  constructor
  · rintro ⟨⟨file, v⟩, w₁, h₁, h⟩
    obtain ⟨hfiles, hpath, l, hl⟩ := at_of_prepare he h₁
    cases backUp with
    | true =>
      simp only [if_true] at h
      rw [bind_run_error] at h
      obtain h | ⟨backup, w₂, h₂, h⟩ := h
      · obtain ⟨hb, rfl⟩ := onFiles_run_error.1 h
        exact ⟨file, v, h₁, rfl, hfiles ▸ hb⟩
      · obtain ⟨saved, hs, rfl⟩ := onFiles_run_ok.1 h₂
        rw [hfiles] at hs
        rw [bind_run_error, commit_run (hpath ▸ (Saved.taken hs).at hl)] at h
        simp at h
    | false =>
      simp only [Bool.false_eq_true, if_false] at h
      rw [bind_run_error, commit_run (hfiles ▸ hpath ▸ hl)] at h
      simp at h
  · rintro ⟨file, v, h₁, rfl, hb⟩
    obtain ⟨hfiles, -⟩ := at_of_prepare he h₁
    exact ⟨_, w', h₁, bind_run_error.2 (.inl (onFiles_run_error.2 ⟨hfiles ▸ hb, rfl⟩))⟩

theorem stemOf_error {path : Text} {e : EditError} (h : Backup.stemOf path = .error e) :
    e = .access path .fileName := by
  unfold Backup.stemOf at h
  split at h <;> cases h
  rfl

/-- A number for the next backup is missing if the script has no name or its directory cannot be read. -/
theorem next_error {fs : FileSystem} {path : Text} {e : EditError} (h : Backup.next fs path = .error e) :
    e = .access path .fileName ∨ ∃ fault, e = .access (Path.directory path) (.list fault) := by
  unfold Backup.next Backup.all at h
  rw [bind_eq_error] at h
  rcases h with h | ⟨_, -, h⟩
  · rw [bind_eq_error] at h
    rcases h with h | ⟨_, -, h⟩
    · exact .inl (stemOf_error h)
    · simp only at h
      split at h <;> cases h
      exact .inr ⟨_, rfl⟩
  · cases h

/-- A backup fails where its number or its name is missing, or where it cannot be created. -/
theorem backup_error {file : ScriptFile} {fs : FileSystem} {e : EditError} (h : file.backup fs = .error e) :
    e = .access file.path .fileName ∨ (∃ fault, e = .access (Path.directory file.path) (.list fault)) ∨
      ∃ path fault, e = .access path (.backUp fault) := by
  unfold ScriptFile.backup at h
  rw [bind_eq_error] at h
  rcases h with h | ⟨sequence, -, h⟩
  · exact (next_error h).imp_right .inl
  rw [bind_eq_error] at h
  rcases h with h | ⟨path, -, h⟩
  · unfold Backup.pathFor at h
    rw [bind_eq_error] at h
    rcases h with h | ⟨_, -, h⟩
    · exact .inl (stemOf_error h)
    · cases h
  · split at h <;> cases h
    exact .inr (.inr ⟨_, _, rfl⟩)

/-- An edit that fails has touched no file. -/
theorem setValue_error_files (he : engine.KeepsFiles) {path name value : Text} {backUp : Bool}
    {w w' : World σ} {e : EditError} (h : setValue engine path name value backUp w = .error e w') :
    w'.files = w.files ∧ ¬ e.IsRollback := by
  rcases (setValue_run_error he).1 h with h | ⟨file, v, h, -, hb⟩
  · exact ⟨(careful_prepare he path name value).files_error h, (careful_prepare he path name value).error h⟩
  · refine ⟨(careful_prepare he path name value).files_ok h, ?_⟩
    rcases backup_error hb with rfl | ⟨_, rfl⟩ | ⟨_, _, rfl⟩ <;> exact id

/-! ## Batches -/

theorem rollBack_run {path : Text} {backup : Backup} {e : EditError} {w : World σ}
    {files : FileSystem} (h : Backup.copyBack w.files path backup.path = .ok files) :
    (rollBack path backup e : Action σ α) w = .error e { w with files } := by
  unfold rollBack
  refine bind_run_error.2 (.inr ⟨w, w, rfl, ?_⟩)
  rw [h]
  rfl

theorem rollBack_run_ne_ok {path : Text} {backup : Backup} {e : EditError} {w w' : World σ} {a : α} :
    (rollBack path backup e : Action σ α) w ≠ .ok a w' := by
  cases h : Backup.copyBack w.files path backup.path with
  | ok files => simp [rollBack_run h]
  | error c =>
    intro hr
    unfold rollBack at hr
    obtain ⟨_, w₁, hget, hr⟩ := bind_run_ok.1 hr
    cases hget
    rw [h] at hr
    cases hr

theorem tryCatch_of_ok {ε τ : Type} {x : EStateM ε τ α} {handle : ε → EStateM ε τ α} {w w' : τ} {a : α}
    (h : x w = .ok a w') : tryCatch x handle w = .ok a w' := by
  change EStateM.tryCatch x handle w = _
  delta EStateM.tryCatch
  simp [h]

theorem tryCatch_of_error {ε τ : Type} {x : EStateM ε τ α} {handle : ε → EStateM ε τ α} {w w' : τ} {e : ε}
    (h : x w = .error e w') : tryCatch x handle w = handle e w' := by
  change EStateM.tryCatch x handle w = _
  delta EStateM.tryCatch
  simp [h, EStateM.Backtrackable.restore, EStateM.dummyRestore]

theorem tryCatch_run_ok {x : Action σ α} {handle : EditError → Action σ α} {w w' : World σ} {a : α} :
    tryCatch x handle w = .ok a w' ↔
      x w = .ok a w' ∨ ∃ e w₁, x w = .error e w₁ ∧ handle e w₁ = .ok a w' := by
  cases h : x w with
  | ok b w₁ => simp [tryCatch_of_ok h]
  | error e w₁ => simp [tryCatch_of_error h, and_assoc]

theorem tryCatch_run_error {x : Action σ α} {handle : EditError → Action σ α} {w w' : World σ}
    {e : EditError} :
    tryCatch x handle w = .error e w' ↔ ∃ c w₁, x w = .error c w₁ ∧ handle c w₁ = .error e w' := by
  cases h : x w with
  | ok b w₁ => simp [tryCatch_of_ok h]
  | error e w₁ => simp [tryCatch_of_error h, and_assoc]

theorem discard_run_ok {x : Action σ α} {w w' : World σ} {u : PUnit} :
    (discard x : Action σ PUnit) w = .ok u w' ↔ ∃ a, x w = .ok a w' := by
  cases h : x w <;> simp [discard, Functor.mapConst, EStateM.map, h]

theorem discard_run_error {x : Action σ α} {w w' : World σ} {e : EditError} :
    (discard x : Action σ PUnit) w = .error e w' ↔ x w = .error e w' := by
  cases h : x w <;> simp [discard, Functor.mapConst, EStateM.map, h]

variable {path name value : Text} {backup : Backup} {rest : List (Text × Text)} {w w' : World σ}

/-- The edits of a batch after its first succeed one after the other. -/
theorem setRest_run_ok (h : setRest engine path backup ((name, value) :: rest) w = .ok () w') :
    ∃ b w₁, setValue engine path name value false w = .ok b w₁ ∧
      setRest engine path backup rest w₁ = .ok () w' := by
  rw [setRest, bind_run_ok] at h
  obtain ⟨_, w₁, h₁, h₂⟩ := h
  rcases tryCatch_run_ok.1 h₁ with h₁ | ⟨e, w₂, -, h₁⟩
  · obtain ⟨b, h₁⟩ := discard_run_ok.1 h₁
    exact ⟨b, w₁, h₁, h₂⟩
  · exact absurd h₁ rollBack_run_ne_ok

/-- They fail with the first of them that fails, after putting the backup back. -/
theorem setRest_run_error {e : EditError}
    (h : setRest engine path backup ((name, value) :: rest) w = .error e w') :
    (∃ c w₁, setValue engine path name value false w = .error c w₁ ∧
      (rollBack path backup c : Action σ Unit) w₁ = .error e w') ∨
    ∃ b w₁, setValue engine path name value false w = .ok b w₁ ∧
      setRest engine path backup rest w₁ = .error e w' := by
  rw [setRest, bind_run_error] at h
  rcases h with h | ⟨_, w₁, h₁, h₂⟩
  · obtain ⟨c, w₁, h, hr⟩ := tryCatch_run_error.1 h
    exact .inl ⟨c, w₁, discard_run_error.1 h, hr⟩
  · rcases tryCatch_run_ok.1 h₁ with h₁ | ⟨c, w₂, -, h₁⟩
    · obtain ⟨b, h₁⟩ := discard_run_ok.1 h₁
      exact .inr ⟨b, w₁, h₁, h₂⟩
    · exact absurd h₁ rollBack_run_ne_ok

/-- The first edit of a batch is an edit with a backup: writing its candidate cannot fail. -/
theorem tryCommit_run (he : engine.KeepsFiles) {file : ScriptFile} {v : Verified} {w₁ w₂ : World σ}
    (h₁ : prepare engine path name value w = .ok (file, v) w₁)
    (h₂ : onFiles file.backup w₁ = .ok backup w₂) {handle : EditError → Action σ Unit} :
    ∃ w₃, tryCatch (commit file v) handle w₂ = .ok () w₃ ∧
      setValue engine path name value true w = .ok (some backup) w₃ := by
  obtain ⟨hfiles, hpath, l, hl⟩ := at_of_prepare he h₁
  obtain ⟨saved, hs, rfl⟩ := onFiles_run_ok.1 h₂
  rw [hfiles] at hs
  have hc := commit_run (v := v) (w := { w₁ with files := saved }) (hpath ▸ (Saved.taken hs).at hl)
  refine ⟨_, tryCatch_run_ok.2 (.inl hc), ?_⟩
  exact (setValue_run_ok he).2 ⟨file, v, w₁, l, saved, h₁, hl, .taken hs, rfl⟩

theorem setAll_run_ok (he : engine.KeepsFiles) {b : Option Backup}
    (h : setAll engine path ((name, value) :: rest) w = .ok b w') :
    ∃ backup w₁, b = some backup ∧ setValue engine path name value true w = .ok (some backup) w₁ ∧
      setRest engine path backup rest w₁ = .ok () w' := by
  rw [setAll, bind_run_ok] at h
  obtain ⟨⟨file, v⟩, w₁, h₁, h⟩ := h
  rw [bind_run_ok] at h
  obtain ⟨backup, w₂, h₂, h⟩ := h
  rw [bind_run_ok] at h
  obtain ⟨_, w₃, h₃, h⟩ := h
  rw [bind_run_ok] at h
  obtain ⟨_, w₄, h₄, h⟩ := h
  cases h
  obtain ⟨w₅, hc, hset⟩ := tryCommit_run he h₁ h₂
  rw [hc] at h₃
  cases h₃
  exact ⟨backup, _, rfl, hset, h₄⟩

theorem setAll_run_error (he : engine.KeepsFiles) {e : EditError}
    (h : setAll engine path ((name, value) :: rest) w = .error e w') :
    setValue engine path name value true w = .error e w' ∨
    ∃ backup w₁, setValue engine path name value true w = .ok (some backup) w₁ ∧
      setRest engine path backup rest w₁ = .error e w' := by
  rw [setAll, bind_run_error] at h
  rcases h with h | ⟨⟨file, v⟩, w₁, h₁, h⟩
  · exact .inl ((setValue_run_error he).2 (.inl h))
  rw [bind_run_error] at h
  rcases h with h | ⟨backup, w₂, h₂, h⟩
  · obtain ⟨hb, rfl⟩ := onFiles_run_error.1 h
    obtain ⟨hfiles, -⟩ := at_of_prepare he h₁
    exact .inl ((setValue_run_error he).2 (.inr ⟨file, v, h₁, rfl, hfiles ▸ hb⟩))
  obtain ⟨w₃, hc, hset⟩ := tryCommit_run he h₁ h₂
  rw [bind_run_error, hc] at h
  rcases h with h | ⟨_, w₄, h₃, h⟩
  · cases h
  cases h₃
  rw [bind_run_error] at h
  rcases h with h | ⟨_, w₅, -, h⟩
  · exact .inr ⟨backup, w₃, hset, h⟩
  · cases h

end Editor

end ConfigScript
