import ConfigScript.CommandLine
import ConfigScript.Proofs.Retold
import ConfigScript.Proofs.RoundTrip
/-!
# Workspaces as scripts

A workspace is shown as one assignment a line. Each line is read as an assignment wherever it stands
(`Workspace.run_lines`), and the texts of values denote equivalent values as long as no variable hides
a function. So what is shown of a script is a script that binds the same names to equivalent values
(`CommandLine.show_executes`).
-/

namespace ConfigScript

open Token (IsWord)

variable {name : Text} {w vars : Workspace}

/-! ## The names of variables -/

/-- A script can assign a variable of this name. -/
structure Assignable (name : Text) : Prop where
  word : IsWord name
  keyword : isKeyword name = false

theorem assignable_of_identifier (h : isIdentifier name = true) : Assignable name := by
  cases name with
  | nil => cases h
  | cons c t =>
    simp only [isIdentifier, Bool.and_eq_true, Bool.not_eq_true'] at h
    obtain ⟨⟨⟨halpha, hall⟩, -⟩, hkey⟩ := h
    have hpart : Token.isNamePart c = true := by simp [Token.isNamePart, Char.isAlphanum, halpha]
    exact ⟨⟨halpha, List.all_cons.trans (Bool.and_eq_true_iff.2 ⟨hpart, hall⟩)⟩, hkey⟩

namespace Runner

variable {settings : Settings} {process : Table Text} {r : Runner} {script : Text}

theorem evaluateSeeds_assignable {presets : List (Text × Text)}
    (h : evaluateSeeds settings process presets = .ok w) : ∀ n ∈ Table.names w, Assignable n := by
  induction presets generalizing w with
  | nil =>
    cases h
    exact nofun
  | cons p presets ih =>
    obtain ⟨name, source⟩ := p
    rw [evaluateSeeds] at h
    split at h
    · next hname =>
      obtain ⟨v, -, h⟩ := bind_eq_ok.1 h
      obtain ⟨more, hmore, h⟩ := bind_eq_ok.1 h
      cases h
      intro n hn
      rcases Table.mem_names_insert.1 hn with rfl | hn
      · exact assignable_of_identifier hname
      · exact ih hmore n hn
    · cases h

/-- What a script binds it can assign, pre-bound variables among it. -/
theorem execute_assignable (hr : ofSettings settings process = .ok r) (h : r.execute script = .ok w) :
    ∀ n ∈ Table.names w, Assignable n := by
  obtain ⟨program, hp, hrun⟩ := execute_eq_ok.1 h
  obtain ⟨toks, htok, hp⟩ := readProgram_eq_ok.1 hp
  obtain ⟨seeds, hseeds, hr⟩ := bind_eq_ok.1 hr
  cases hr
  intro n hn
  rcases Statement.runAll_binds program seeds w hrun n hn with hn | hn
  · exact evaluateSeeds_assignable hseeds n hn
  · obtain ⟨x, hx, rfl⟩ := List.mem_map.1 hn
    have hwords : Program.Words IsWord (kinds toks) := fun w hw => (Token.word_of_tokenize htok hw).1
    obtain ⟨hnamed, -⟩ := (Program.ofTokens_eq_ok.1 hp).named hwords
    obtain ⟨hword, hkey⟩ := hnamed.targets x hx
    exact ⟨hword, hkey⟩

end Runner

/-! ## Lines that assign -/

namespace Workspace

open CommandLine (bindingLine line)
open Edit (assignmentText run_assignment)
open Program (Spells ReadsExpr Spot)
open Statement (within)
open Token (Writes Scan Run)
open Value (Normal Writable)

/-- The statements assign these expressions to these variables. -/
inductive Assigns : List Text → List Expr → Program → Prop
  | nil : Assigns [] [] []
  | cons {line : Nat} {name : Text} {e : Expr} {names : List Text} {es : List Expr} {program : Program} :
    Assigns names es program → Assigns (name :: names) (e :: es) (.assign line name [] e :: program)

variable {s : Scan} {v : Value} {e : Expr} {es : List Expr}

theorem run_line (hname : IsWord name) (hv : Writes v.render e) (hg : s.groups = []) (rest : Text) :
    ∃ (s' : Scan) (q : Spot) (value : List Token) (semi brk : Token),
      Run s (bindingLine (name, v) ++ rest) s' rest ∧ s'.groups = [] ∧
      s'.tokens.reverse = s.tokens.reverse ++ q.before (value ++ [semi, brk]) ∧ q.name = name ∧
      semi.kind = .semicolon ∧ brk.kind = .newline ∧ ReadsExpr value e [] := by
  obtain ⟨s₁, q, value, semi, hrun, hg₁, htok, hq, hsemi, hread⟩ := run_assignment hname hv hg ('\n' :: rest)
  have htext : bindingLine (name, v) ++ rest = assignmentText name v.render ++ '\n' :: rest := by
    simp [bindingLine, line, assignmentText]
  refine ⟨s₁.after .newline '\n', q, value, semi, ⟨.newline, s₁.line, s₁.offset⟩, ?_, hg₁, ?_, hq, hsemi, rfl,
    hread⟩
  · rw [htext]
    exact hrun.trans (.single (Token.step_newline hg₁))
  · simp [Scan.after, htok, Spot.before]

/-- The lines of a workspace are read as assignments, one after the other. -/
theorem run_lines (hnames : ∀ n ∈ Table.names vars, Assignable n)
    (hv : List.Forall₂ (fun p e => Writes p.2.render e) vars es) (hg : s.groups = []) :
    ∃ (s' : Scan) (ts : List Token) (program : Program), Run s (vars.flatMap bindingLine) s' [] ∧ s'.groups = [] ∧
      s'.tokens.reverse = s.tokens.reverse ++ ts ∧ Spells (.block []) ts (.body program) [] ∧
      Assigns (Table.names vars) es program := by
  induction hv generalizing s with
  | nil => exact ⟨s, [], [], .nil, hg, (List.append_nil _).symm, .done rfl, .nil⟩
  | @cons p e vars es hfirst _ ih =>
    obtain ⟨name, v⟩ := p
    obtain ⟨hword, hkey⟩ := hnames name List.mem_cons_self
    obtain ⟨s₁, q, value, semi, brk, hrun₁, hg₁, htok₁, rfl, hsemi, hbrk, hread⟩ :=
      run_line hword hfirst hg (vars.flatMap bindingLine)
    obtain ⟨s', ts, program, hrun, hg', htok, hspells, hassigns⟩ :=
      ih (fun n hn => hnames n (List.mem_cons_of_mem _ hn)) hg₁
    refine ⟨s', q.before (value ++ semi :: brk :: ts), _, ?_, hg', ?_, .line hkey hread hsemi hbrk hspells,
      .cons hassigns⟩
    · rw [List.flatMap_cons]
      exact hrun₁.trans hrun
    · simp [htok, htok₁, Spot.before]

theorem readProgram_lines (hnames : ∀ n ∈ Table.names vars, Assignable n)
    (hv : List.Forall₂ (fun p e => Writes p.2.render e) vars es) :
    ∃ program, Runner.readProgram (vars.flatMap bindingLine) = .ok program ∧
      Assigns (Table.names vars) es program := by
  obtain ⟨s, ts, program, hrun, hg, htok, hspells, hassigns⟩ := run_lines (s := .start) hnames hv rfl
  refine ⟨program, Runner.readProgram_eq_ok.2 ⟨ts, Token.scan_eq_ok.2 ⟨s, hrun, hg, ?_⟩,
    Program.ofTokens_eq_ok.2 hspells⟩, hassigns⟩
  rw [htok]
  rfl

/-! ## What they bind -/

/-- The same variables with equivalent values, in the same order. -/
def SameVariables (vars' vars : Workspace) : Prop :=
  List.Forall₂ (fun p' p => p'.1 = p.1 ∧ p'.2.equivalent p.2 = true) vars' vars

theorem SameVariables.names {vars' : Workspace} (h : SameVariables vars' vars) :
    Table.names vars' = Table.names vars := by
  induction h with
  | nil => rfl
  | cons hfirst _ ih => exact congrArg₂ List.cons hfirst.1 ih

theorem SameVariables.lookup {vars' : Workspace} (h : SameVariables vars' vars) {v' : Value}
    (hv : vars.lookup name = some v) (hv' : vars'.lookup name = some v') : v'.equivalent v = true := by
  induction h with
  | nil => cases hv
  | @cons p' p _ _ hfirst _ ih =>
    obtain ⟨hname, hequiv⟩ := hfirst
    rw [List.lookup_cons] at hv hv'
    rw [hname] at hv'
    cases hhere : name == p.1 with
    | true =>
      rw [hhere] at hv hv'
      cases hv
      cases hv'
      exact hequiv
    | false =>
      rw [hhere] at hv hv'
      exact ih hv hv'

/-- Behind variables of other names, equivalent values are written and bound. -/
theorem exists_rebound (s : Surroundings) (hsorted : Table.Sorted (w ++ vars))
    (hfree : ∀ n ∈ Table.names (w ++ vars), Function.ofName? n = none) (hn : ∀ p ∈ vars, p.2.Normal)
    (hw : ∀ p ∈ vars, Writable p.2.parts) :
    ∃ es vars', List.Forall₂ (fun p e => Writes p.2.render e) vars es ∧ SameVariables vars' vars ∧
      ∀ program, Assigns (Table.names vars) es program → Statement.runAll s w program = .ok (w ++ vars') := by
  induction vars generalizing w with
  | nil =>
    refine ⟨[], [], .nil, .nil, fun program h => ?_⟩
    cases h
    rw [Statement.runAll, List.append_nil]
  | cons p vars ih =>
    obtain ⟨name, v⟩ := p
    have hclear : (within s w).Clear := by
      intro n hf
      refine Table.lookup_eq_none_iff.2 fun hmem => hf (hfree n ?_)
      simp [Table.names] at hmem ⊢
      exact .inl hmem
    obtain ⟨v', ⟨e, hwrites, heval⟩, hequiv⟩ := Value.denotes_render hclear v (hn _ List.mem_cons_self)
      (hw _ List.mem_cons_self)
    have hlast : ∀ n ∈ Table.names w, compare n name = .lt := by
      unfold Table.Sorted Table.names at hsorted
      rw [List.map_append, List.pairwise_append] at hsorted
      exact fun n hmem => hsorted.2.2 n hmem name List.mem_cons_self
    have hnames : Table.names ((w ++ [(name, v')]) ++ vars) = Table.names (w ++ (name, v) :: vars) := by
      simp [Table.names]
    obtain ⟨es, vars', hvs, hsame, hrun⟩ := @ih (w ++ [(name, v')]) (by unfold Table.Sorted; rwa [hnames])
      (hnames ▸ hfree) (fun p hp => hn p (List.mem_cons_of_mem _ hp)) fun p hp => hw p (List.mem_cons_of_mem _ hp)
    refine ⟨e :: es, (name, v') :: vars', .cons hwrites hvs, .cons ⟨rfl, hequiv⟩ hsame, fun program h => ?_⟩
    cases h with
    | @cons line _ _ _ _ program h =>
      have hassign : Statement.run s w (.assign line name [] e) = .ok (w ++ [(name, v')]) := by
        rw [Statement.run, heval]
        exact congrArg Except.ok (Table.insert_last hlast v')
      rw [Statement.runAll, hassign]
      refine (hrun program h).trans ?_
      rw [List.append_assoc]
      rfl

end Workspace

namespace CommandLine

open Runner (readProgram)
open Value (Writable)

variable {settings other : Settings} {process process' : Table Text} {r : Runner} {world : World Unit}

theorem show_run_ok {file text : Text} {show' : Run Text} {engine : Engine Unit} {world' : World Unit}
    (h : answerTo engine false (.show file) = .ok show') :
    show' world = .ok text world' ↔
      ∃ vars, Editor.bindings engine file world = .ok vars world' ∧ text = vars.flatMap bindingLine := by
  cases h
  refine Editor.bind_run_ok.trans ⟨?_, ?_⟩
  · rintro ⟨vars, w₁, hvars, h⟩
    cases h
    exact ⟨vars, hvars, rfl⟩
  · rintro ⟨vars, hvars, rfl⟩
    exact ⟨vars, world', hvars, rfl⟩

/-- What is shown of a script is a script. It runs under any settings without pre-bound variables and binds
the same names to equivalent values, if no variable of the script hides a function, its values can be
written, and doubles count the sizes of its empty matrices, as they do all below 2^53. -/
theorem show_executes (hr : Runner.ofSettings settings process = .ok r) {file : Text} {script : ScriptFile}
    (hread : ScriptFile.read world.files file = .ok script) (hvars : r.execute script.content = .ok vars)
    (hfree : ∀ n ∈ Table.names vars, Function.ofName? n = none) (hw : ∀ p ∈ vars, Writable p.2.parts)
    (hsizes : ∀ p ∈ vars, p.2.Each Matrix.Measured) (hother : other.presets = []) (process' : Table Text) :
    ∃ show' text r' vars', answerTo r.engine false (.show file) = .ok show' ∧ show' world = .ok text world ∧
      Runner.ofSettings other process' = .ok r' ∧ r'.execute text = .ok vars' ∧
      Table.names vars' = Table.names vars ∧
      ∀ name v v', vars.lookup name = some v → vars'.lookup name = some v' → v'.equivalent v = true := by
  have hsorted := Runner.execute_sorted hr hvars
  have hnormal : ∀ p ∈ vars, p.2.Normal := fun p hp =>
    (Runner.Builds.bound hr hvars ((Table.lookup_eq_some_iff hsorted).2 hp)).normal (hsizes p hp)
  obtain ⟨es, vars', hwrites, hsame, hrun⟩ :=
    Workspace.exists_rebound (w := []) ⟨other, process', []⟩ hsorted hfree hnormal hw
  obtain ⟨lines, hlines, hassigns⟩ :=
    Workspace.readProgram_lines (Runner.execute_assignable hr hvars) hwrites
  have hr' : Runner.ofSettings other process' = .ok ⟨other, process', []⟩ := by
    rw [Runner.ofSettings, hother]
    rfl
  refine ⟨_, _, _, vars', rfl, (show_run_ok rfl).2 ⟨vars, Editor.bindings_run_ok.2 ⟨script, hread, hvars, rfl⟩, rfl⟩,
    hr', Runner.execute_eq_ok.2 ⟨lines, hlines, hrun lines hassigns⟩, hsame.names, fun name v v' hv hv' => ?_⟩
  exact hsame.lookup hv hv'

/-- Two variables, bound in another order than the one they are shown in. -/
theorem show_executes_cells :
    let world : World Unit := ⟨FileSystem.single "s.m" "b = \x7b0.5, 'it''s'\x7d;\na = b;\n", ()⟩
    let v : Value := .cell [.double 0.5, .text "it's".toList]
    let vars : Workspace := [("a".toList, v), ("b".toList, v)]
    ∃ show' text r' vars', answerTo Runner.plain.engine false (.show "/s.m".toList) = .ok show' ∧
      show' world = .ok text world ∧ Runner.ofSettings {} [] = .ok r' ∧ r'.execute text = .ok vars' ∧
      Table.names vars' = Table.names vars ∧
      ∀ name u u', vars.lookup name = some u → vars'.lookup name = some u' → u'.equivalent u = true := by
  intro world v vars
  let cell : Expr := .cell [[.number 0.5, .quoted "it's".toList]]
  let lines : Program := [.assign 1 "b".toList [] cell, .assign 2 "a".toList [] (.name "b".toList)]
  have hread : ScriptFile.read world.files "/s.m".toList =
      .ok ⟨"/s.m".toList, "b = \x7b0.5, 'it''s'\x7d;\na = b;\n".toList⟩ := by with_unfolding_all rfl
  have hlines : readProgram "b = \x7b0.5, 'it''s'\x7d;\na = b;\n".toList = .ok lines := by
    with_unfolding_all rfl
  have hsizes : v.Each Matrix.Measured := by simp [v]
  refine @show_executes vars {} {} [] Runner.plain world rfl _ _ hread (Runner.execute_eq_ok.2 ⟨lines, hlines, rfl⟩)
    (by decide) ?_ ?_ rfl []
  · exact List.forall_mem_cons.2 ⟨Runner.writable_cell, List.forall_mem_singleton.2 Runner.writable_cell⟩
  · exact List.forall_mem_cons.2 ⟨hsizes, List.forall_mem_singleton.2 hsizes⟩

end CommandLine

end ConfigScript
