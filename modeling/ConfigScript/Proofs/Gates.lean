import ConfigScript.Proofs.Edits
/-!
# The gates of an edit

An edit calls the engine at most four times and in a fixed order, whatever the engine answers, and
it changes files only after all four calls have passed (`Protocol`). The calls are observed through
an engine that records them, which changes nothing else about the edit (`Mirrors`).
-/

namespace ConfigScript

/-- A call of the engine. -/
inductive Call where
  | execute (script : Text)
  | evaluate (expression : Text)
deriving Repr, DecidableEq

/-- A call of the engine and its answer. -/
inductive Exchange where
  | execute (script : Text) (answer : Except EngineError Workspace)
  | evaluate (expression : Text) (answer : Except EngineError Value)

def Exchange.call : Exchange → Call
  | execute script _ => .execute script
  | evaluate expression _ => .evaluate expression

variable {σ α β : Type}

/-- The engine with a record of its calls, latest last. -/
def Engine.recorded (engine : Engine σ) : Engine (σ × List Exchange) where
  execute script w :=
    let (answer, after) := engine.execute script ⟨w.files, w.engine.1⟩
    (answer, ⟨after.files, after.engine, w.engine.2 ++ [.execute script answer]⟩)
  evaluate expression w :=
    let (answer, after) := engine.evaluate expression ⟨w.files, w.engine.1⟩
    (answer, ⟨after.files, after.engine, w.engine.2 ++ [.evaluate expression answer]⟩)

theorem Engine.KeepsFiles.recorded {engine : Engine σ} (he : engine.KeepsFiles) :
    engine.recorded.KeepsFiles where
  execute script w := he.execute script ⟨w.files, w.engine.1⟩
  evaluate expression w := he.evaluate expression ⟨w.files, w.engine.1⟩

namespace World

/-- The world with an empty record. -/
def recording (w : World σ) : World (σ × List Exchange) := ⟨w.files, w.engine, []⟩

/-- The world without its record. -/
def forget (w : World (σ × List Exchange)) : World σ := ⟨w.files, w.engine.1⟩

def log (w : World (σ × List Exchange)) : List Exchange := w.engine.2

end World

namespace Editor

open Edit (Action)

/-- The result without the record. -/
def forgetResult :
    EStateM.Result EditError (World (σ × List Exchange)) α → EStateM.Result EditError (World σ) α
  | .ok a w => .ok a w.forget
  | .error e w => .error e w.forget

/-! ## The record changes nothing -/

/-- An action does with a record what another one does without. -/
structure Mirrors (x : Action (σ × List Exchange) α) (y : Action σ α) : Prop where
  run : ∀ w, forgetResult (x w) = y w.forget

theorem Mirrors.bind {x : Action (σ × List Exchange) α} {y : Action σ α}
    {f : α → Action (σ × List Exchange) β} {g : α → Action σ β} (h : Mirrors x y)
    (hf : ∀ a, Mirrors (f a) (g a)) : Mirrors (x >>= f) (y >>= g) := by
  refine ⟨fun w => ?_⟩
  have hw := h.run w
  cases hx : x w with
  | ok a w₁ =>
    rw [hx] at hw
    have hy : y w.forget = .ok a w₁.forget := hw.symm
    have hfa := (hf a).run w₁
    simpa [Bind.bind, EStateM.bind, hx, hy] using hfa
  | error e w₁ =>
    rw [hx] at hw
    have hy : y w.forget = .error e w₁.forget := hw.symm
    simp [Bind.bind, EStateM.bind, hx, hy, forgetResult]

theorem mirrors_pure (a : α) : Mirrors (pure a : Action (σ × List Exchange) α) (pure a) :=
  ⟨fun _ => rfl⟩

theorem mirrors_throw (e : EditError) : Mirrors (throw e : Action (σ × List Exchange) α) (throw e) :=
  ⟨fun _ => rfl⟩

theorem mirrors_lift {ε : Type} (wrap : ε → EditError) (x : Except ε α) :
    Mirrors (lift wrap x : Action (σ × List Exchange) α) (lift wrap x) := by
  cases x with
  | ok a => exact mirrors_pure a
  | error e => exact mirrors_throw (wrap e)

theorem mirrors_readFiles (f : FileSystem → Except EditError α) :
    Mirrors (readFiles f : Action (σ × List Exchange) α) (readFiles f) := by
  refine ⟨fun w => ?_⟩
  rw [readFiles_run, readFiles_run]
  exact (mirrors_lift id (f w.files)).run w

theorem mirrors_onFiles (f : FileSystem → Except EditError (α × FileSystem)) :
    Mirrors (onFiles f : Action (σ × List Exchange) α) (onFiles f) := by
  refine ⟨fun w => ?_⟩
  cases h : f w.files with
  | ok p =>
    obtain ⟨a, files⟩ := p
    rw [onFiles_run_ok.2 ⟨files, h, rfl⟩]
    exact (onFiles_run_ok (w := w.forget)).2 ⟨files, h, rfl⟩ |>.symm
  | error e =>
    rw [onFiles_run_error.2 ⟨h, rfl⟩]
    exact (onFiles_run_error (w := w.forget)).2 ⟨h, rfl⟩ |>.symm

theorem mirrors_checkName (name : Text) :
    Mirrors (checkName name : Action (σ × List Exchange) Unit) (checkName name) := by
  unfold checkName
  split
  · exact mirrors_pure ()
  · exact mirrors_throw _

theorem mirrors_execute (engine : Engine σ) (stage : Stage) (script : Text) :
    Mirrors (execute engine.recorded stage script) (execute engine stage script) := by
  refine ⟨fun w => ?_⟩
  rw [execute_eq_ask, execute_eq_ask, ask_run, ask_run]
  exact (mirrors_lift _ _).run (engine.recorded.execute script w).2

theorem mirrors_evaluate (engine : Engine σ) (expression : Text) :
    Mirrors (evaluate engine.recorded expression) (evaluate engine expression) := by
  refine ⟨fun w => ?_⟩
  rw [evaluate_eq_ask, evaluate_eq_ask, ask_run, ask_run]
  exact (mirrors_lift _ _).run (engine.recorded.evaluate expression w).2

variable (engine : Engine σ) (script path name traced value : Text)

theorem mirrors_verify (occurrences : List Edit.Occurrence) :
    Mirrors (verify engine.recorded script name occurrences traced value)
      (verify engine script name occurrences traced value) := by
  unfold verify resolveLive
  refine .bind (.bind (mirrors_execute ..) fun _ => mirrors_lift ..) fun live => ?_
  refine .bind (mirrors_evaluate ..) fun expected => .bind (mirrors_execute ..) fun before => ?_
  split
  · exact mirrors_throw _
  · refine .bind (mirrors_execute ..) fun after => ?_
    exact .bind (mirrors_lift ..) fun _ => mirrors_pure _

theorem mirrors_prepare :
    Mirrors (prepare engine.recorded path name value) (prepare engine path name value) := by
  unfold prepare
  refine .bind (mirrors_checkName name) fun _ => .bind (mirrors_readFiles _) fun file => ?_
  refine .bind (mirrors_lift ..) fun _ => .bind (mirrors_lift ..) fun occurrences => ?_
  exact .bind (mirrors_verify ..) fun _ => mirrors_pure _

/-- Recording its calls does not change what an edit does. -/
theorem mirrors_setValue (backUp : Bool) :
    Mirrors (setValue engine.recorded path name value backUp)
      (setValue engine path name value backUp) := by
  unfold setValue
  refine .bind (mirrors_prepare ..) fun ⟨file, v⟩ => ?_
  cases backUp with
  | true =>
    exact .bind (mirrors_onFiles _) fun _ => .bind (mirrors_onFiles _) fun _ => mirrors_pure _
  | false => exact .bind (mirrors_onFiles _) fun _ => mirrors_pure _

/-! ## The order of the calls -/

variable {script path name traced value : Text} {engine : Engine σ}

/-- The calls that an action makes are the first ones of such a sequence, and all of them if it
succeeds. -/
structure Asks (x : Action (σ × List Exchange) α) (sequences : List Call → Prop) : Prop where
  run : ∀ w, ∃ made calls, sequences calls ∧ (worldAfter (x w)).log = w.log ++ made ∧
    made.map Exchange.call <+: calls ∧ (succeeded (x w) = true → made.map Exchange.call = calls)

theorem Asks.imp {x : Action (σ × List Exchange) α} {sequences sequences' : List Call → Prop}
    (hx : Asks x sequences) (h : ∀ calls, sequences calls → sequences' calls) : Asks x sequences' := by
  refine ⟨fun w => ?_⟩
  obtain ⟨made, calls, hs, hx⟩ := hx.run w
  exact ⟨made, calls, h calls hs, hx⟩

/-- What is left to call after the calls of the first action. -/
theorem Asks.bind {x : Action (σ × List Exchange) α} {f : α → Action (σ × List Exchange) β}
    {first : List Call} {sequences : List Call → Prop} (hx : Asks x (· = first))
    (hf : ∀ a, Asks (f a) fun more => sequences (first ++ more))
    (hne : ∃ more, sequences (first ++ more)) : Asks (x >>= f) sequences := by
  refine ⟨fun w => ?_⟩
  obtain ⟨made, calls, rfl, hlog, hpre, hall⟩ := hx.run w
  cases h : x w with
  | ok a w₁ =>
    obtain ⟨made', more, hs, hlog', hpre', hall'⟩ := (hf a).run w₁
    have hrun : (x >>= f) w = f a w₁ := by simp [Bind.bind, EStateM.bind, h]
    simp only [h, worldAfter] at hlog
    have hmade : made.map Exchange.call = calls := hall (by simp [h, succeeded])
    refine ⟨made ++ made', calls ++ more, hs, ?_, ?_, ?_⟩
    · rw [hrun, hlog', hlog, List.append_assoc]
    · rw [List.map_append, hmade]
      exact (List.prefix_append_right_inj _).2 hpre'
    · rw [hrun, List.map_append, hmade]
      intro hok
      rw [hall' hok]
  | error e w₁ =>
    obtain ⟨more, hs⟩ := hne
    have hrun : (x >>= f) w = .error e w₁ := by simp [Bind.bind, EStateM.bind, h]
    simp only [h, worldAfter] at hlog
    refine ⟨made, calls ++ more, hs, by rw [hrun]; exact hlog, ?_, ?_⟩
    · exact hpre.trans (List.prefix_append _ _)
    · intro hok
      rw [hrun] at hok
      cases hok

theorem asks_pure (a : α) : Asks (pure a : Action (σ × List Exchange) α) (· = []) :=
  ⟨fun _ => ⟨[], [], rfl, (List.append_nil _).symm, List.prefix_rfl, fun _ => rfl⟩⟩

theorem asks_throw (e : EditError) {sequences : List Call → Prop} (hne : ∃ calls, sequences calls) :
    Asks (throw e : Action (σ × List Exchange) α) sequences := by
  obtain ⟨calls, hs⟩ := hne
  refine ⟨fun _ => ⟨[], calls, hs, (List.append_nil _).symm, List.nil_prefix, ?_⟩⟩
  rintro ⟨⟩

theorem asks_lift {ε : Type} (wrap : ε → EditError) (x : Except ε α) :
    Asks (lift wrap x : Action (σ × List Exchange) α) (· = []) := by
  cases x with
  | ok a => exact asks_pure a
  | error e => exact asks_throw (wrap e) ⟨_, rfl⟩

/-- One call, which is recorded whether its answer is an error or not. -/
theorem asks_one {ε : Type} (wrap : ε → EditError)
    {question : World (σ × List Exchange) → Except ε α × World (σ × List Exchange)} {call : Call}
    (h : ∀ w, ∃ exchange, (question w).2.log = w.log ++ [exchange] ∧ exchange.call = call) :
    Asks (ask wrap question) (· = [call]) := by
  refine ⟨fun w => ?_⟩
  obtain ⟨exchange, hlog, rfl⟩ := h w
  refine ⟨[exchange], _, rfl, ?_, List.prefix_rfl, fun _ => rfl⟩
  rw [ask_run, ← hlog]
  cases (question w).1 <;> rfl

theorem asks_execute (engine : Engine σ) (stage : Stage) (script : Text) :
    Asks (execute engine.recorded stage script) (· = [.execute script]) :=
  asks_one (.scriptFailed stage) fun _ => ⟨_, rfl, rfl⟩

theorem asks_evaluate (engine : Engine σ) (expression : Text) :
    Asks (evaluate engine.recorded expression) (· = [.evaluate expression]) :=
  asks_one (.invalidValue expression) fun _ => ⟨_, rfl, rfl⟩

/-- The calls of an edit that replaces one of the occurrences, in their order. -/
def Calls (script traced value : Text) (occurrences : List Edit.Occurrence) (calls : List Call) : Prop :=
  ∃ o ∈ occurrences, calls = [.execute traced, .evaluate (Edit.normalize value), .execute script,
    .execute (Edit.splice script o value)]

theorem asks_resolveLive (engine : Engine σ) (traced : Text) (count : Nat) :
    Asks (resolveLive engine.recorded traced count) (· = [.execute traced]) := by
  unfold resolveLive
  refine (asks_execute engine _ traced).bind (fun run => ?_) ⟨[], rfl⟩
  refine (asks_lift _ _).imp ?_
  rintro _ rfl
  rfl

theorem asks_verify {occurrences : List Edit.Occurrence} (hne : occurrences ≠ []) :
    Asks (verify engine.recorded script name occurrences traced value)
      (Calls script traced value occurrences) := by
  obtain ⟨o, ho⟩ := List.exists_mem_of_ne_nil occurrences hne
  unfold verify
  refine (asks_resolveLive engine traced _).bind (fun live => ?_) ⟨_, o, ho, rfl⟩
  refine (asks_evaluate engine _).bind (fun expected => ?_) ⟨_, o, ho, rfl⟩
  refine (asks_execute engine _ _).bind (fun before => ?_) ⟨_, o, ho, rfl⟩
  split
  · exact asks_throw _ ⟨_, o, ho, rfl⟩
  · next o' ho' =>
    have hmem := List.mem_of_find?_eq_some ho'
    refine (asks_execute engine _ _).bind (fun after => ?_) ⟨[], o', hmem, rfl⟩
    refine (asks_lift _ _).bind (fun _ => (asks_pure _).imp ?_) ⟨[], o', hmem, rfl⟩
    rintro _ rfl
    exact ⟨o', hmem, rfl⟩

/-- The calls of an edit of this script. -/
def CallsOf (script name value : Text) : List Call → Prop :=
  Calls script (Edit.instrument (Edit.sanitize script) (Edit.Occurrence.find (Edit.sanitize script) name))
    value (Edit.Occurrence.find (Edit.sanitize script) name)

/-- No calls, or the first ones of an edit of the script that `path` leads to. -/
inductive Begun (fs : FileSystem) (path name value : Text) : List Exchange → Prop
  | silent : Begun fs path name value []
  | asked {file : ScriptFile} {calls : List Call} {made : List Exchange} :
    ScriptFile.read fs path = .ok file → CallsOf file.content name value calls →
    made.map Exchange.call <+: calls → Begun fs path name value made

/-- Preparing an edit calls the engine only if the script can be read, and then in order. -/
theorem prepare_calls (engine : Engine σ) (path name value : Text) (w : World (σ × List Exchange)) :
    ∃ made, (worldAfter (prepare engine.recorded path name value w)).log = w.log ++ made ∧
      Begun w.files path name value made := by
  cases h : prepare engine.recorded path name value w with
  | ok p w' =>
    obtain ⟨-, hread, -, hne, hv⟩ := prepare_run_ok.1 h
    obtain ⟨made, calls, hc, hlog, hpre, -⟩ := (asks_verify hne).run w
    rw [hv] at hlog
    exact ⟨made, hlog, .asked hread hc hpre⟩
  | error e w' =>
    rcases prepare_run_error h with rfl | ⟨file, hread, hne, hv⟩
    · exact ⟨[], (List.append_nil _).symm, .silent⟩
    · obtain ⟨made, calls, hc, hlog, hpre, -⟩ := (asks_verify hne).run w
      rw [hv] at hlog
      exact ⟨made, hlog, .asked hread hc hpre⟩

/-- An edit calls the engine only while it is prepared. -/
theorem setValue_log (he : engine.KeepsFiles) (backUp : Bool) (w : World (σ × List Exchange)) :
    (worldAfter (setValue engine.recorded path name value backUp w)).log =
      (worldAfter (prepare engine.recorded path name value w)).log := by
  cases h : setValue engine.recorded path name value backUp w with
  | ok b w' =>
    obtain ⟨file, v, w₁, l, saved, hp, -, -, rfl⟩ := (setValue_run_ok he.recorded).1 h
    rw [hp]
    rfl
  | error e w' =>
    rcases (setValue_run_error he.recorded).1 h with hp | ⟨file, v, hp, -⟩ <;> rw [hp] <;> rfl

/-! ## Passing all gates -/

/-- All four calls passed, the trace names the occurrence `o`, and the comparison accepted. -/
def Passed (script name value : Text) (o : Edit.Occurrence) (made : List Exchange) : Prop :=
  let occurrences := Edit.Occurrence.find (Edit.sanitize script) name
  o ∈ occurrences ∧ ∃ run v before after,
    made = [.execute (Edit.instrument (Edit.sanitize script) occurrences) (.ok run),
      .evaluate (Edit.normalize value) (.ok v), .execute script (.ok before),
      .execute (Edit.splice script o value) (.ok after)] ∧
    Edit.liveId run occurrences.length = .ok o.id ∧
    Edit.compare before after name v = .ok ()

/-- The script that `path` leads to has new content. If a backup was asked for, a file with the old
content stands where nothing stood. Everything else is as before. -/
def Rewritten (before after : FileSystem) (path : Text) (backUp : Bool) (old new : Text) : Prop :=
  ∃ l, ScriptFile.At before path l old ∧ ScriptFile.At after path l new ∧
    if backUp then
      ∃ k, before.node? k = none ∧ after.node? k = some (.file (ScriptFile.encode old)) ∧
        ∀ m, m ≠ l → m ≠ k → after.node? m = before.node? m
    else ∀ m, m ≠ l → after.node? m = before.node? m

theorem recorded_execute {w w' : World (σ × List Exchange)}
    {answer : Except EngineError Workspace} (h : engine.recorded.execute script w = (answer, w')) :
    w'.log = w.log ++ [.execute script answer] := by
  obtain ⟨rfl, rfl⟩ := Prod.mk.inj h
  rfl

theorem recorded_evaluate {w w' : World (σ × List Exchange)}
    {answer : Except EngineError Value} (h : engine.recorded.evaluate value w = (answer, w')) :
    w'.log = w.log ++ [.evaluate value answer] := by
  obtain ⟨rfl, rfl⟩ := Prod.mk.inj h
  rfl

theorem passed_of_prepare {w w' : World (σ × List Exchange)} {file : ScriptFile} {v : Verified}
    (h : prepare engine.recorded path name value w = .ok (file, v) w') :
    ∃ o made, w'.log = w.log ++ made ∧ Passed file.content name value o made ∧
      v.candidate = Edit.splice file.content o value := by
  obtain ⟨-, -, -, -, hv⟩ := prepare_run_ok.1 h
  obtain ⟨run, w₁, w₂, before, w₃, o, after, h₁, hlive, h₂, h₃, ho, hcand, h₄, hcmp⟩ := verify_run_ok.1 hv
  have hid : o.id = v.live := by simpa using List.find?_some ho
  have hlog := recorded_execute h₄
  rw [recorded_execute h₃, recorded_evaluate h₂, recorded_execute h₁, hcand] at hlog
  simp only [List.append_assoc, List.cons_append, List.nil_append] at hlog
  exact ⟨o, _, hlog, ⟨List.mem_of_find?_eq_some ho, run, v.value, before, after, rfl, hid ▸ hlive, hcmp⟩,
    hcand⟩

theorem Saved.rewritten {file : ScriptFile} {fs saved : FileSystem} {backUp : Bool}
    {b : Option Backup} (hs : Saved file fs backUp b saved) {path : Text} {l : Location}
    (hl : ScriptFile.At fs path l file.content) (new : Text) :
    Rewritten fs (saved.put l (.file (ScriptFile.encode new))) path backUp file.content new := by
  have hne := FileSystem.ne_nil_of_find hl
  refine ⟨l, hl, FileSystem.find_put_self (hs.at hl) _, ?_⟩
  cases hs with
  | skipped =>
    intro m hm
    exact FileSystem.node?_put_of_ne hne hm
  | taken hb =>
    obtain ⟨k, hk, rfl, -, -, -⟩ := ScriptFile.backup_eq_ok hb
    have hkl : k ≠ l := by
      rintro rfl
      simp [FileSystem.node?_of_find hl] at hk
    have hk' : fs.node? k ≠ some .directory := by simp [hk]
    refine ⟨k, hk, ?_, fun m hm hmk => ?_⟩
    · rw [FileSystem.node?_put_of_ne hne hkl, FileSystem.node?_put_self (FileSystem.ne_nil_of_node? hk')]
    · rw [FileSystem.node?_put_of_ne hne hm, FileSystem.node?_put_of_ne (FileSystem.ne_nil_of_node? hk') hmk]

/-- A candidate is never empty, so it gets a final line break exactly if it lacks one. -/
theorem endLastLine_splice (script value : Text) (o : Edit.Occurrence) :
    (Edit.splice script o value).endLastLine =
      if (Edit.splice script o value).getLast? = some '\n' then Edit.splice script o value
      else Edit.splice script o value ++ ['\n'] := by
  have hne : (Edit.splice script o value).isEmpty = false := by simp [Edit.splice]
  simp [Text.endLastLine, hne]

/-- What an edit does in front of any engine: its calls are the first ones of the fixed sequence.
If files change, all four calls have passed, the script is the candidate and nothing else is new
but the backup. If the edit fails, no file changes. -/
structure Protocol (engine : Engine σ) (path name value : Text) (backUp : Bool) (w : World σ)
    (run : EStateM.Result EditError (World (σ × List Exchange)) (Option Backup)) : Prop where
  same : forgetResult run = setValue engine path name value backUp w
  order : Begun w.files path name value (worldAfter run).log
  changed : (worldAfter run).files ≠ w.files → ∃ file o,
    ScriptFile.read w.files path = .ok file ∧
    Passed file.content name value o (worldAfter run).log ∧
    Rewritten w.files (worldAfter run).files path backUp file.content
      (if (Edit.splice file.content o value).getLast? = some '\n' then Edit.splice file.content o value
        else Edit.splice file.content o value ++ ['\n'])
  failed : ∀ e w', run = .error e w' → w'.files = w.files

theorem setValue_protocol (he : engine.KeepsFiles) (path name value : Text) (backUp : Bool)
    (w : World σ) : Protocol engine path name value backUp w
      (setValue engine.recorded path name value backUp w.recording) where
  same := (mirrors_setValue engine path name value backUp).run w.recording
  order := by
    obtain ⟨made, hlog, hb⟩ := prepare_calls engine path name value w.recording
    rw [setValue_log he, hlog]
    exact hb
  changed := by
    intro hne
    cases h : setValue engine.recorded path name value backUp w.recording with
    | ok b w' =>
      obtain ⟨file, v, w₁, l, saved, hp, hl, hs, rfl⟩ := (setValue_run_ok he.recorded).1 h
      obtain ⟨o, made, hlog, hpass, hcand⟩ := passed_of_prepare hp
      obtain rfl : w₁.log = made := hlog
      refine ⟨file, o, (prepare_run_ok.1 hp).2.1, hpass, ?_⟩
      rw [← endLastLine_splice, ← hcand]
      exact hs.rewritten hl _
    | error e w' =>
      rw [h] at hne
      exact absurd (setValue_error_files he.recorded h).1 hne
  failed e w' h := (setValue_error_files he.recorded h).1

set_option maxRecDepth 10000 in
/-- The script here lacks a final line break, and the edit adds it. -/
theorem setValue_protocol_single :
    let w : World Unit := ⟨FileSystem.single "s.m" "a = 1;", ()⟩
    ∃ file o, ScriptFile.read w.files "/s.m".toList = .ok file ∧
      Passed file.content "a".toList "2".toList o (worldAfter (setValue Runner.plain.engine.recorded
        "/s.m".toList "a".toList "2".toList true w.recording)).log := by
  intro w
  have hc := (setValue_protocol Runner.plain.engine_keepsFiles "/s.m".toList "a".toList "2".toList
    true w).changed
  have hf : ((worldAfter (setValue Runner.plain.engine.recorded "/s.m".toList "a".toList "2".toList
      true w.recording)).files.readText "/s.m".toList).toOption ≠
      (w.files.readText "/s.m".toList).toOption := by decide +kernel
  obtain ⟨file, o, hread, hpass, -⟩ := hc fun h => hf (by rw [h])
  exact ⟨file, o, hread, hpass⟩

end Editor

end ConfigScript
