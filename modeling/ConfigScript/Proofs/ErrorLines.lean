import ConfigScript.Proofs.Outcomes
import ConfigScript.Proofs.ParserLines
import ConfigScript.Proofs.TokenLines
/-!
# The lines of errors

A run fails at one of the statements of the program, on the line of that statement (`runAll_blames`), and a script
that cannot be read fails on the line of a token or where the scan has stopped. So whatever line an error tells is
one of the script (`Runner.execute_lines`).
-/

namespace ConfigScript

/-! ## Runs that fail -/

namespace Statement

variable {s : Surroundings} {w : Workspace} {e : RuntimeError} {parts more : List Statement}

theorem line_of_onLine {α : Type} {x : Except Fault α} {line : Nat} (h : onLine line x = .error e) : e.line = line := by
  cases x with
  | ok a => cases h
  | error fault =>
    cases h
    rfl

/-- The error is that of one of these statements when it ran, and on its line. -/
def Blames (s : Surroundings) (parts : List Statement) (e : RuntimeError) : Prop :=
  ∃ st ∈ parts, st.line = e.line ∧ ∃ w, run s w st = .error e

theorem Blames.left (h : Blames s parts e) : Blames s (parts ++ more) e := by
  obtain ⟨st, hst, h⟩ := h
  exact ⟨st, List.mem_append_left more hst, h⟩

theorem Blames.right (h : Blames s more e) : Blames s (parts ++ more) e := by
  obtain ⟨st, hst, h⟩ := h
  exact ⟨st, List.mem_append_right parts hst, h⟩

theorem Blames.cons {st : Statement} (h : Blames s parts e) : Blames s (st :: parts) e := by
  obtain ⟨part, hpart, h⟩ := h
  exact ⟨part, List.mem_cons_of_mem st hpart, h⟩

mutual

theorem run_blames : (st : Statement) → {w : Workspace} → {e : RuntimeError} → run s w st = .error e →
    Blames s st.nested e
  | assign line target path value, w, e, h => by
    have hline := line_of_onLine (by rwa [run] at h)
    rw [nested]
    exact ⟨_, List.mem_singleton_self _, hline.symm, w, h⟩
  | eval line value, w, e, h => by
    have hline := line_of_onLine (by rwa [run] at h)
    rw [nested]
    exact ⟨_, List.mem_singleton_self _, hline.symm, w, h⟩
  | cond line branches otherwise, w, e, h => by
    have hrun := h
    rw [nested]
    rw [run.eq_def] at h
    rcases bind_eq_error.1 h with h | ⟨after, -, h⟩
    · rcases runBranches_blames branches h with hline | hblames
      · -- a condition has failed
        exact ⟨_, List.mem_cons_self, hline.symm, w, hrun⟩
      · exact hblames.left.cons
    · cases after with
      | some after => cases h
      | none =>
        cases otherwise with
        | none => cases h
        | some body => exact (runAll_blames body h).right.cons

theorem runBranches_blames : (branches : List Branch) → {line : Nat} → {w : Workspace} → {e : RuntimeError} →
    runBranches s w line branches = .error e → e.line = line ∨ Blames s (branchNested branches) e
  | [], line, w, e, h => by
    rw [runBranches] at h
    cases h
  | .mk condition body :: rest, line, w, e, h => by
    rw [branchNested]
    rw [runBranches] at h
    rcases bind_eq_error.1 h with h | ⟨holds, -, h⟩
    · exact .inl (line_of_onLine h)
    · cases holds with
      | true =>
        rcases bind_eq_error.1 h with h | ⟨_, -, h⟩
        · exact .inr (runAll_blames body h).left
        · cases h
      | false => exact (runBranches_blames rest h).imp_right Blames.right

/-- The error of a run is that of a statement of the program, on its line. -/
theorem runAll_blames : (ss : List Statement) → {w : Workspace} → {e : RuntimeError} → runAll s w ss = .error e →
    Blames s (bodyNested ss) e
  | [], w, e, h => by
    rw [runAll] at h
    cases h
  | st :: rest, w, e, h => by
    rw [bodyNested]
    rw [runAll] at h
    rcases bind_eq_error.1 h with h | ⟨after, -, h⟩
    · exact (run_blames st h).left
    · exact (runAll_blames rest h).right

end

end Statement

/-! ## Scripts that fail -/

/-- The line that an error tells. -/
def EngineError.line : EngineError → Nat
  | unreadable e => e.line
  | failed e => e.line

namespace Runner

open Token Program
open Statement (Blames bodyNested)

variable {r : Runner} {source : Text} {e : EngineError} {program : Program}

theorem isLine_one (source : Text) : IsLine source 1 := ⟨Nat.le_refl 1, Nat.le_add_right 1 _⟩

/-- The statements of a script and an error in place of its program are on lines of the script. -/
theorem read_lines (source : Text) : Ends (IsLine source)
    (fun program => StatementsOn (IsLine source) (bodyNested program)) (tokenize source >>= ofTokens) := by
  cases htok : tokenize source with
  | error error =>
    obtain ⟨before, after, hsource, hline⟩ := tokenize_error htok
    show IsLine source error.line
    rw [hline]
    exact isLine_of_append hsource
  | ok toks => exact ofTokens_lines (isLine_one source) fun _ hx => (tokenize_stand htok).isLine hx

theorem isLine_of_unreadable (h : readProgram source = .error e) : IsLine source e.line := by
  have hread := read_lines source
  unfold readProgram at h
  split at h
  · cases h
  · next hx =>
    cases h
    rw [hx] at hread
    exact hread

theorem isLine_of_program (h : readProgram source = .ok program) :
    StatementsOn (IsLine source) (bodyNested program) := by
  have hread := read_lines source
  unfold readProgram at h
  split at h
  · next hx =>
    cases h
    rw [hx] at hread
    exact hread
  · cases h

theorem execute_eq_error : r.execute source = .error e ↔ readProgram source = .error e ∨
    ∃ program error, readProgram source = .ok program ∧ e = .failed error ∧
      Statement.runAll ⟨r.settings, r.process, []⟩ r.seeds program = .error error := by
  unfold execute
  rw [bind_eq_error]
  refine or_congr_right (exists_congr fun program => ?_)
  cases Statement.runAll ⟨r.settings, r.process, []⟩ r.seeds program with
  | ok w => simp [pure, Except.pure]
  | error error => simp [eq_comm]

/-- The tokens of a script stand in it, each on the line after as many line breaks as are in front of its first
character. Every error of a run is on a line of the script. If the script could be read, then it is the error of a
statement of the program, on the line of that statement. -/
theorem execute_lines (r : Runner) (source : Text) :
    (∀ toks, tokenize source = .ok toks → Stand [] source toks ∧
      ∀ x ∈ toks, ∃ (before : Text) (c : Char) (after : Text), source = before ++ c :: after ∧
        x.line = 1 + before.lineBreaks ∧ x.offset = before.byteLength) ∧
    ∀ e, r.execute source = .error e → (1 ≤ e.line ∧ e.line ≤ 1 + source.lineBreaks) ∧
      ∀ error, e = .failed error → ∃ program, readProgram source = .ok program ∧
        Blames ⟨r.settings, r.process, []⟩ (bodyNested program) error := by
  refine ⟨fun toks h => ⟨tokenize_stand h, fun x hx => ?_⟩, fun e h => ?_⟩
  · obtain ⟨before, c, after, hsource, hx⟩ := (tokenize_stand h).standsIn x hx
    exact ⟨before, c, after, hsource, congrArg Token.line hx, congrArg Token.offset hx⟩
  · rcases execute_eq_error.1 h with h | ⟨program, error, hp, rfl, hrun⟩
    · refine ⟨isLine_of_unreadable h, ?_⟩
      rintro error rfl
      unfold readProgram at h
      split at h <;> cases h
    · have hblames := Statement.runAll_blames program hrun
      refine ⟨?_, ?_⟩
      · obtain ⟨st, hst, hline, -⟩ := hblames
        have hst : IsLine source st.line := isLine_of_program hp st hst
        rwa [hline] at hst
      · rintro _ ⟨⟩
        exact ⟨program, hp, hblames⟩

/-- A comment, a string, a continuation in brackets, where a comma is added, and a branch that fails. -/
def branchingScript : Text := "% two\nx = 'a'; % c\nm = [1 ...\n 2];\nif 1\n y = zzz;\nend\n".toList

/-- The line that a run tells where it fails. -/
def failedLine? : Except EngineError Workspace → Option Nat
  | .error (.failed e) => some e.line
  | _ => none

theorem execute_lines_branching : ∃ toks error program,
    tokenize branchingScript = .ok toks ∧ plain.execute branchingScript = .error (.failed error) ∧
    readProgram branchingScript = .ok program ∧ Stand [] branchingScript toks ∧
    toks.map Token.line = [1, 2, 2, 2, 2, 2, 3, 3, 3, 3, 4, 4, 4, 4, 4, 5, 5, 5, 6, 6, 6, 6, 6, 7, 7] ∧
    error.line = 6 ∧ (1 ≤ error.line ∧ error.line ≤ 1 + branchingScript.lineBreaks) ∧
    Blames ⟨plain.settings, plain.process, []⟩ (bodyNested program) error := by
  have htoks : (tokenize branchingScript).toOption.map (·.map Token.line) =
      some [1, 2, 2, 2, 2, 2, 3, 3, 3, 3, 4, 4, 4, 4, 4, 5, 5, 5, 6, 6, 6, 6, 6, 7, 7] := by decide +kernel
  have hfails : failedLine? (plain.execute branchingScript) = some 6 := by decide +kernel
  obtain ⟨toks, htok, hlines⟩ := Option.map_eq_some_iff.1 htoks
  have htok : tokenize branchingScript = .ok toks := ok_of_toOption htok
  obtain ⟨error, herror⟩ : ∃ error, plain.execute branchingScript = .error (.failed error) := by
    unfold failedLine? at hfails
    split at hfails
    · next error herror => exact ⟨error, herror⟩
    · cases hfails
  obtain ⟨hstand, herrors⟩ := execute_lines plain branchingScript
  obtain ⟨hline, hblames⟩ := herrors _ herror
  obtain ⟨program, hprogram, hblames⟩ := hblames error rfl
  rw [herror] at hfails
  exact ⟨toks, error, program, htok, herror, hprogram, (hstand toks htok).1, hlines, Option.some.inj hfails, hline, hblames⟩

end Runner

end ConfigScript
