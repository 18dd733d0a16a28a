import ConfigScript.Proofs.Inheritance
import ConfigScript.Proofs.Outcomes
/-!
# What a run builds

The values that come up while a runner answers a request: those of the expressions that it
evaluates, pre-bound variables among them, of what these expressions see, and of what is bound in the
end (`Runner.BuildsFor`, and `Runner.Builds` for any request). An inherited property holds of all of
them (`Runner.BuildsFor.inherits`), also where the run fails.
-/

namespace ConfigScript

variable {T P : Value → Prop} {s : Surroundings}

namespace Expr

open Value (Inherited)

/-- The values on the way to the value of an expression: those of the expressions in it, and the
rows of its brackets. -/
inductive Builds (s : Surroundings) (e : Expr) : Value → Prop
  | part {p : Expr} {v : Value} : p ∈ e.parts → p.eval s = .ok v → Builds s e v
  | row {rows : List (List Expr)} {row : List Expr} {vs : List Value} {v : Value} :
      matrix rows ∈ e.parts → row ∈ rows → evalList s row = .ok vs → Value.beside vs = .ok v → Builds s e v

theorem Builds.inherits {e : Expr} {v : Value} (hP : Inherited T P) (hs : s.workspace.All P)
    (hT : Suits T s e.parts) (h : Builds s e v) : P v := by
  cases h with
  | @part p _ hmem hv => exact eval_inherits hP hs p (hT.mono (parts_subset e p hmem)) v hv
  | @row rows row _ _ hmem hrow hvs hv =>
    have hsub : partsRows rows ⊆ e.parts := fun x hx => parts_subset e _ hmem (by simp [parts, hx])
    have hrows : partsList row ⊆ partsRows rows := fun x hx => mem_partsRows.2 ⟨row, hrow, hx⟩
    exact hP.beside (evalList_inherits hP hs row (hT.mono (List.Subset.trans hrows hsub)) _ hvs) hv

end Expr

/-! ## Runners -/

namespace Runner

open Value (Inherited)

variable {settings : Settings} {process : Table Text}

/-! ## Values of expressions -/

/-- What an expression sees besides its variables. -/
def surroundings (r : Runner) : Surroundings := ⟨r.settings, r.process, []⟩

theorem evaluateUnder_eq_ok :
    evaluateUnder settings process source = .ok v ↔
      ∃ e, readExpr source = .ok e ∧ e.eval ⟨settings, process, []⟩ = .ok v := by
  unfold evaluateUnder
  rw [bind_eq_ok]
  refine exists_congr fun e => and_congr_right fun _ => ?_
  cases he : e.eval ⟨settings, process, []⟩ with
  | ok v => simp [onLine, pure, Except.pure]
  | error fault => simp [onLine]

/-- The pre-bound variables inherit what their expressions hand on. -/
theorem evaluateSeeds_inherits {T P : Value → Prop} (hP : Inherited T P) {presets : List (Text × Text)}
    {w : Workspace}
    (hT : ∀ p ∈ presets, ∀ e, readExpr p.2 = .ok e → Expr.Suits T ⟨settings, process, []⟩ e.parts)
    (h : evaluateSeeds settings process presets = .ok w) : w.All P := by
  induction presets generalizing w with
  | nil =>
    cases h
    exact fun _ _ h => by cases h
  | cons p presets ih =>
    obtain ⟨name, source⟩ := p
    rw [evaluateSeeds] at h
    split at h
    · obtain ⟨v, hv, h⟩ := bind_eq_ok.1 h
      obtain ⟨more, hmore, h⟩ := bind_eq_ok.1 h
      cases h
      obtain ⟨e, hread, he⟩ := evaluateUnder_eq_ok.1 hv
      intro n u hu
      by_cases hn : n = name
      · subst hn
        rw [Table.lookup_insert_self] at hu
        cases hu
        exact Expr.eval_inherits hP (fun _ _ h => by cases h) e (hT _ List.mem_cons_self e hread) v he
      · rw [Table.lookup_insert_of_ne hn] at hu
        exact ih (fun p hp => hT p (List.mem_cons_of_mem _ hp)) hmore n u hu
    · cases h

/-! ## Requests -/

/-- The values that runs under these settings build: those of expressions, pre-bound variables among
them, and those of scripts, whether or not the run gets to its end. -/
inductive Builds (settings : Settings) (process : Table Text) : Value → Prop
  | expression {source : Text} {e : Expr} {v : Value} :
      readExpr source = .ok e → e.Builds ⟨settings, process, []⟩ v → Builds settings process v
  | seed {r : Runner} {name : Text} {v : Value} :
      ofSettings settings process = .ok r → r.seeds.lookup name = some v → Builds settings process v
  | evaluation {r : Runner} {script : Text} {program : Program} {w : Workspace} {e : Expr} {v : Value} :
      ofSettings settings process = .ok r → readProgram script = .ok program →
      (w, e) ∈ Statement.evaluatedAll r.surroundings r.seeds program →
      e.Builds (Statement.within r.surroundings w) v → Builds settings process v
  | seen {r : Runner} {script name : Text} {program : Program} {w : Workspace} {e : Expr} {v : Value} :
      ofSettings settings process = .ok r → readProgram script = .ok program →
      (w, e) ∈ Statement.evaluatedAll r.surroundings r.seeds program →
      w.lookup name = some v → Builds settings process v
  | bound {r : Runner} {script name : Text} {w : Workspace} {v : Value} :
      ofSettings settings process = .ok r → r.execute script = .ok w →
      w.lookup name = some v → Builds settings process v

/-- What a runner is asked for: the value of an expression, or the variables of a script. -/
inductive Request where
  | expression (source : Text)
  | script (source : Text)

/-- The expressions that are evaluated for a request, each with what it sees. A script runs behind the
pre-bound variables. -/
inductive Evaluates (settings : Settings) (process : Table Text) : Request → Surroundings → Expr → Prop
  | expression {source : Text} {e : Expr} :
      readExpr source = .ok e → Evaluates settings process (.expression source) ⟨settings, process, []⟩ e
  | preset {script name source : Text} {e : Expr} : (name, source) ∈ settings.presets →
      readExpr source = .ok e → Evaluates settings process (.script script) ⟨settings, process, []⟩ e
  | statement {r : Runner} {script : Text} {program : Program} {w : Workspace} {e : Expr} :
      ofSettings settings process = .ok r → readProgram script = .ok program →
      (w, e) ∈ Statement.evaluatedAll r.surroundings r.seeds program →
      Evaluates settings process (.script script) (Statement.within r.surroundings w) e

/-- The values that are built for a request: those on the way of an expression, those that it sees, and
those that a script binds, before it runs and in the end. -/
inductive BuildsFor (settings : Settings) (process : Table Text) : Request → Value → Prop
  | value {q : Request} {s : Surroundings} {e : Expr} {v : Value} :
      Evaluates settings process q s e → e.Builds s v → BuildsFor settings process q v
  | seen {q : Request} {s : Surroundings} {e : Expr} {name : Text} {v : Value} :
      Evaluates settings process q s e → s.workspace.lookup name = some v → BuildsFor settings process q v
  | seed {r : Runner} {script name : Text} {v : Value} :
      ofSettings settings process = .ok r → r.seeds.lookup name = some v →
      BuildsFor settings process (.script script) v
  | bound {r : Runner} {script name : Text} {w : Workspace} {v : Value} :
      ofSettings settings process = .ok r → r.execute script = .ok w →
      w.lookup name = some v → BuildsFor settings process (.script script) v

theorem Builds.exists_request {v : Value} (h : Builds settings process v) :
    ∃ q, BuildsFor settings process q v := by
  cases h with
  | expression hread hv => exact ⟨_, .value (.expression hread) hv⟩
  | seed hr hv => exact ⟨.script [], .seed hr hv⟩
  | evaluation hr hp hmem hv => exact ⟨_, .value (.statement hr hp hmem) hv⟩
  | seen hr hp hmem hv => exact ⟨_, .seen (.statement hr hp hmem) hv⟩
  | bound hr hw hv => exact ⟨_, .bound hr hw hv⟩

variable {q : Request}

theorem seeds_inherit (hP : Inherited T P) {r : Runner} (hr : ofSettings settings process = .ok r)
    (hT : ∀ p ∈ settings.presets, ∀ e, readExpr p.2 = .ok e → Expr.Suits T ⟨settings, process, []⟩ e.parts) :
    r.seeds.All P := by
  obtain ⟨seeds, hseeds, hr⟩ := bind_eq_ok.1 hr
  cases hr
  exact evaluateSeeds_inherits hP hT hseeds

/-- An inherited property holds of every value that is built for a request. -/
theorem BuildsFor.inherits (hP : Inherited T P)
    (hT : ∀ {s e}, Evaluates settings process q s e → Expr.Suits T s e.parts) {v : Value}
    (h : BuildsFor settings process q v) : P v := by
  have hseeds : ∀ {r : Runner} {script : Text}, q = .script script → ofSettings settings process = .ok r →
      r.seeds.All P := by
    rintro r script rfl hr
    exact seeds_inherit hP hr fun p hp e he => hT (.preset hp he)
  have hseen : ∀ {s e}, Evaluates settings process q s e → s.workspace.All P := by
    intro s e he
    cases he with
    | expression | preset => exact fun _ _ h => by cases h
    | statement hr hp hmem =>
      exact Statement.evaluatedAll_keeps (Statement.kept_inherited hP) _ _ (hseeds rfl hr)
        (fun p hp' => hT (.statement hr hp hp')) _ hmem
  cases h with
  | value he hv => exact hv.inherits hP (hseen he) (hT he)
  | seen he hv => exact hseen he _ _ hv
  | seed hr hv => exact hseeds rfl hr _ _ hv
  | bound hr hw hv =>
    obtain ⟨program, hp, hrun⟩ := execute_eq_ok.1 hw
    exact Statement.runAll_keeps (Statement.kept_inherited hP) _ _ _ (hseeds rfl hr)
      (fun p hp' => hT (.statement hr hp hp')) hrun _ _ hv

/-- What is inherited without a condition holds of every value that a run builds. -/
theorem Builds.inherits (hP : Inherited (fun _ => True) P) {v : Value} (h : Builds settings process v) : P v := by
  obtain ⟨q, hq⟩ := h.exists_request
  exact hq.inherits hP fun _ => Expr.suits_true

/-! ## The order of the variables -/

theorem evaluateSeeds_sorted {presets : List (Text × Text)} {w : Workspace}
    (h : evaluateSeeds settings process presets = .ok w) : w.Sorted := by
  induction presets generalizing w with
  | nil =>
    cases h
    exact Table.sorted_nil
  | cons p presets ih =>
    obtain ⟨name, source⟩ := p
    rw [evaluateSeeds] at h
    split at h
    · obtain ⟨v, -, h⟩ := bind_eq_ok.1 h
      obtain ⟨more, hmore, h⟩ := bind_eq_ok.1 h
      cases h
      exact (ih hmore).insert name v
    · cases h

/-- What a script binds is in the order of the names. -/
theorem execute_sorted {r : Runner} {script : Text} {w : Workspace} (hr : ofSettings settings process = .ok r)
    (h : r.execute script = .ok w) : w.Sorted := by
  obtain ⟨program, -, hrun⟩ := execute_eq_ok.1 h
  obtain ⟨seeds, hseeds, hr⟩ := bind_eq_ok.1 hr
  cases hr
  exact Statement.runAll_keeps Statement.kept_sorted _ _ _ (evaluateSeeds_sorted hseeds) (fun _ _ => trivial) hrun

end Runner

end ConfigScript
