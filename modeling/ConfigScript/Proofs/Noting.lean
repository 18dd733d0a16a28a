import ConfigScript.Proofs.Mentions
import ConfigScript.Runner
/-!
# Which assignments run

`Statement.noting` runs a statement as `Statement.run` does and notes which assignments to a variable run
in it, in order (`notingAll_run`, and `Runner.executeNoting_run` for a script). No assignment runs twice,
and none before one that stands in front of it (`notingAll_sublist`).
-/

namespace ConfigScript

namespace Statement

/-! ## Runs that take notes -/

mutual

/-- The variables after a statement, and the numbers of the assignments to the variable `name` as a whole that
ran in it, in order. The assignments are numbered in the order of the text, here from `k` on. -/
def noting (s : Surroundings) (name : Text) (k : Nat) (w : Workspace) :
    Statement → Except RuntimeError (Workspace × List Nat)
  | assign line target path e => do
    let after ← run s w (assign line target path e)
    return (after, if (target, path) = (name, []) then [k] else [])
  | eval line e => do
    let after ← run s w (eval line e)
    return (after, [])
  | cond line branches otherwise => do
    match ← notingBranches s name k w line branches with
    | some after => return after
    | none =>
      match otherwise with
      | some body => notingAll s name (k + (branchTargets branches).count (name, [])) w body
      | none => return (w, [])

def notingBranches (s : Surroundings) (name : Text) (k : Nat) (w : Workspace) (line : Nat) :
    List Branch → Except RuntimeError (Option (Workspace × List Nat))
  | [] => .ok none
  | .mk condition body :: rest => do
    let holds ← onLine line do
      let v ← condition.eval (within s w)
      v.holds
    if holds then return some (← notingAll s name k w body)
    else notingBranches s name (k + (bodyTargets body).count (name, [])) w line rest

def notingAll (s : Surroundings) (name : Text) (k : Nat) (w : Workspace) :
    List Statement → Except RuntimeError (Workspace × List Nat)
  | [] => .ok (w, [])
  | statement :: rest => do
    let (after, ran) ← noting s name k w statement
    let (last, more) ← notingAll s name (k + statement.targets.count (name, [])) after rest
    return (last, ran ++ more)

end

variable {s : Surroundings} {name : Text}

mutual

theorem noting_run : (st : Statement) → (k : Nat) → (w : Workspace) → Prod.fst <$> noting s name k w st = run s w st
  | assign line target path e, k, w => by
    rw [noting]
    cases run s w (assign line target path e) <;> rfl
  | eval line e, k, w => by
    rw [noting]
    cases run s w (eval line e) <;> rfl
  | cond line branches none, k, w => by
    rw [noting, run, ← notingBranches_run branches k w line]
    cases notingBranches s name k w line branches with
    | error e => rfl
    | ok after => cases after <;> rfl
  | cond line branches (some body), k, w => by
    rw [noting, run, ← notingBranches_run branches k w line]
    cases notingBranches s name k w line branches with
    | error e => rfl
    | ok after =>
      cases after with
      | some after => rfl
      | none => exact notingAll_run body _ w

theorem notingBranches_run : (branches : List Branch) → (k : Nat) → (w : Workspace) → (line : Nat) →
    Option.map Prod.fst <$> notingBranches s name k w line branches = runBranches s w line branches
  | [], k, w, line => rfl
  | .mk condition body :: rest, k, w, line => by
    rw [notingBranches, runBranches]
    cases onLine line (condition.eval (within s w) >>= Value.holds) with
    | error e => rfl
    | ok holds =>
      cases holds with
      | true =>
        show _ = (do return some (← runAll s w body) : Except RuntimeError (Option Workspace))
        rw [← notingAll_run body k w]
        cases notingAll s name k w body <;> rfl
      | false => exact notingBranches_run rest _ w line

/-- The notes aside, a run that takes notes is a run. -/
theorem notingAll_run : (ss : List Statement) → (k : Nat) → (w : Workspace) →
    Prod.fst <$> notingAll s name k w ss = runAll s w ss
  | [], k, w => rfl
  | st :: rest, k, w => by
    rw [notingAll, runAll, ← noting_run st k w]
    cases noting s name k w st with
    | error e => rfl
    | ok after =>
      show Prod.fst <$> (notingAll s name _ after.1 rest >>= fun last => pure (last.1, after.2 ++ last.2)) =
        runAll s after.1 rest
      rw [← notingAll_run rest (k + st.targets.count (name, [])) after.1]
      cases notingAll s name (k + st.targets.count (name, [])) after.1 rest <;> rfl

end

theorem runAll_of_notingAll {k : Nat} {w after : Workspace} {ran : List Nat} {ss : List Statement}
    (h : notingAll s name k w ss = .ok (after, ran)) : runAll s w ss = .ok after := by
  rw [← notingAll_run ss k w, h]
  rfl

mutual

theorem noting_sublist : (st : Statement) → (k : Nat) → (w : Workspace) → (after : Workspace) → (ran : List Nat) →
    noting s name k w st = .ok (after, ran) → ran.Sublist (List.range' k (st.targets.count (name, [])))
  | assign line target path e, k, w, after, ran, h => by
    rw [noting] at h
    obtain ⟨_, -, h⟩ := bind_eq_ok.1 h
    cases h
    by_cases hn : (target, path) = (name, [])
    · simp [targets, hn]
    · simp [hn]
  | eval line e, k, w, after, ran, h => by
    rw [noting] at h
    obtain ⟨_, -, h⟩ := bind_eq_ok.1 h
    cases h
    exact List.nil_sublist _
  | cond line branches none, k, w, after, ran, h => by
    rw [noting] at h
    obtain ⟨found, hfound, h⟩ := bind_eq_ok.1 h
    cases found with
    | some found =>
      cases h
      have hsub := notingBranches_sublist branches k w line after ran hfound
      simpa [targets, otherwiseTargets] using hsub
    | none =>
      cases h
      exact List.nil_sublist _
  | cond line branches (some body), k, w, after, ran, h => by
    rw [noting] at h
    obtain ⟨found, hfound, h⟩ := bind_eq_ok.1 h
    rw [targets, otherwiseTargets, List.count_append, ← List.range'_append_1]
    cases found with
    | some found =>
      cases h
      exact (notingBranches_sublist branches k w line after ran hfound).trans (List.sublist_append_left ..)
    | none => exact (notingAll_sublist body _ w after ran h).trans (List.sublist_append_right ..)

theorem notingBranches_sublist : (branches : List Branch) → (k : Nat) → (w : Workspace) → (line : Nat) →
    (after : Workspace) → (ran : List Nat) → notingBranches s name k w line branches = .ok (some (after, ran)) →
      ran.Sublist (List.range' k ((branchTargets branches).count (name, [])))
  | [], k, w, line, after, ran, h => by
    rw [notingBranches] at h
    cases h
  | .mk condition body :: rest, k, w, line, after, ran, h => by
    rw [notingBranches] at h
    obtain ⟨holds, -, h⟩ := bind_eq_ok.1 h
    rw [branchTargets, List.count_append, ← List.range'_append_1]
    cases holds with
    | true =>
      obtain ⟨found, hfound, h⟩ := bind_eq_ok.1 h
      cases h
      exact (notingAll_sublist body k w after ran hfound).trans (List.sublist_append_left ..)
    | false => exact (notingBranches_sublist rest _ w line after ran h).trans (List.sublist_append_right ..)

/-- Each assignment runs at most once, and they run in the order of the text. -/
theorem notingAll_sublist : (ss : List Statement) → (k : Nat) → (w : Workspace) → (after : Workspace) →
    (ran : List Nat) → notingAll s name k w ss = .ok (after, ran) →
      ran.Sublist (List.range' k ((bodyTargets ss).count (name, [])))
  | [], k, w, after, ran, h => by
    rw [notingAll] at h
    cases h
    exact List.nil_sublist _
  | st :: rest, k, w, after, ran, h => by
    rw [notingAll] at h
    obtain ⟨⟨middle, first⟩, hfirst, h⟩ := bind_eq_ok.1 h
    obtain ⟨⟨last, more⟩, hmore, h⟩ := bind_eq_ok.1 h
    cases h
    rw [bodyTargets, List.count_append, ← List.range'_append_1]
    exact (noting_sublist st k w middle first hfirst).append (notingAll_sublist rest _ middle _ more hmore)

end

end Statement

/-! ## Parts of a program -/

namespace Program

open Statement

variable {s : Surroundings} {name target : Text} {path : List Text} {k line : Nat} {w after : Workspace} {ran : List Nat}

/-- A part of a program run with notes; `line` is the line of its conditional for branches. -/
def Spelled.noting (s : Surroundings) (name : Text) (k : Nat) (w : Workspace) (line : Nat) :
    Spelled → Except RuntimeError (Workspace × List Nat)
  | one st => st.noting s name k w
  | body ss => notingAll s name k w ss
  | tail bs otherwise => do
    match ← notingBranches s name k w line bs with
    | some after => return after
    | none =>
      match otherwise with
      | some last => notingAll s name (k + (branchTargets bs).count (name, [])) w last
      | none => return (w, [])

theorem noting_cond {line' : Nat} {bs : List Branch} {otherwise : Option (List Statement)} :
    (Spelled.one (.cond line bs otherwise)).noting s name k w line' =
      (Spelled.tail bs otherwise).noting s name k w line := by
  cases otherwise <;> rfl

theorem noting_branch {condition : Expr} {body : List Statement} {bs : List Branch}
    {otherwise : Option (List Statement)} {holds : Bool}
    (h : (condition.eval (within s w) >>= Value.holds) = .ok holds) :
    (Spelled.tail (.mk condition body :: bs) otherwise).noting s name k w line =
      if holds then notingAll s name k w body
      else (Spelled.tail bs otherwise).noting s name (k + (bodyTargets body).count (name, [])) w line := by
  have hline : onLine line (condition.eval (within s w) >>= Value.holds) = .ok holds := onLine_eq_ok.2 h
  have hbranches : notingBranches s name k w line (.mk condition body :: bs) =
      if holds then some <$> notingAll s name k w body
      else notingBranches s name (k + (bodyTargets body).count (name, [])) w line bs := by
    rw [notingBranches, hline]
    cases holds <;> rfl
  show (notingBranches s name k w line (.mk condition body :: bs) >>= _) = _
  rw [hbranches]
  cases holds with
  | true =>
    show ((some <$> notingAll s name k w body) >>= _) = notingAll s name k w body
    cases notingAll s name k w body <;> rfl
  | false =>
    rw [branchTargets, List.count_append, ← Nat.add_assoc]
    rfl

/-- A part of a program that runs with branches has run the condition of the first. -/
theorem holds_of_noting {condition : Expr} {body : List Statement} {bs : List Branch}
    {otherwise : Option (List Statement)} {noted : Workspace × List Nat}
    (h : (Spelled.tail (.mk condition body :: bs) otherwise).noting s name k w line = .ok noted) :
    ∃ holds, (condition.eval (within s w) >>= Value.holds) = .ok holds := by
  obtain ⟨found, hfound, -⟩ := bind_eq_ok.1 h
  rw [notingBranches] at hfound
  obtain ⟨holds, hholds, -⟩ := bind_eq_ok.1 hfound
  exact ⟨holds, onLine_eq_ok.1 hholds⟩

theorem noting_assign {e : Expr} : Statement.noting s name k w (.assign line target path e) = .ok (after, ran) ↔
    (∃ v, e.eval (within s w) = .ok v ∧ w.assign target path v = .ok after) ∧
      ran = if (target, path) = (name, []) then [k] else [] := by
  rw [Statement.noting, bind_eq_ok, Statement.run]
  constructor
  · rintro ⟨last, hlast, h⟩
    cases h
    exact ⟨bind_eq_ok.1 (onLine_eq_ok.1 hlast), rfl⟩
  · rintro ⟨⟨v, hv, hassign⟩, rfl⟩
    exact ⟨after, onLine_eq_ok.2 (bind_eq_ok.2 ⟨v, hv, hassign⟩), rfl⟩

theorem noting_eval {e : Expr} : Statement.noting s name k w (.eval line e) = .ok (after, ran) ↔
    (∃ v, e.eval (within s w) = .ok v) ∧ after = w ∧ ran = [] := by
  rw [Statement.noting, bind_eq_ok, Statement.run]
  constructor
  · rintro ⟨last, hlast, h⟩
    cases h
    obtain ⟨v, hv, hlast⟩ := bind_eq_ok.1 (onLine_eq_ok.1 hlast)
    cases hlast
    exact ⟨⟨v, hv⟩, rfl, rfl⟩
  · rintro ⟨⟨v, hv⟩, rfl, rfl⟩
    exact ⟨after, onLine_eq_ok.2 (bind_eq_ok.2 ⟨v, hv, rfl⟩), rfl⟩

theorem noting_cons {st : Statement} {ss : List Statement} : notingAll s name k w (st :: ss) = .ok (after, ran) ↔
    ∃ middle first more, st.noting s name k w = .ok (middle, first) ∧
      notingAll s name (k + st.targets.count (name, [])) middle ss = .ok (after, more) ∧ ran = first ++ more := by
  rw [notingAll, bind_eq_ok]
  constructor
  · rintro ⟨⟨middle, first⟩, hfirst, h⟩
    obtain ⟨⟨last, more⟩, hmore, h⟩ := bind_eq_ok.1 h
    cases h
    exact ⟨middle, first, more, hfirst, hmore, rfl⟩
  · rintro ⟨middle, first, more, hfirst, hmore, rfl⟩
    exact ⟨(middle, first), hfirst, bind_eq_ok.2 ⟨(after, more), hmore, rfl⟩⟩

end Program

/-! ## Scripts -/

namespace Runner

/-- The variables that a script binds, and the numbers of the assignments to `name` that ran, in order. The
assignments are numbered from one in the order of the script. -/
def executeNoting (r : Runner) (name script : Text) : Except EngineError (Workspace × List Nat) := do
  let program ← readProgram script
  match Statement.notingAll ⟨r.settings, r.process, []⟩ name 1 r.seeds program with
  | .ok noted => return noted
  | .error error => .error (.failed error)

variable {r : Runner} {name script : Text} {w : Workspace} {ran : List Nat}

theorem executeNoting_eq_ok : r.executeNoting name script = .ok (w, ran) ↔
    ∃ program, readProgram script = .ok program ∧
      Statement.notingAll ⟨r.settings, r.process, []⟩ name 1 r.seeds program = .ok (w, ran) := by
  rw [executeNoting, bind_eq_ok]
  refine exists_congr fun program => and_congr_right fun _ => ?_
  cases Statement.notingAll ⟨r.settings, r.process, []⟩ name 1 r.seeds program with
  | ok noted => simp [pure, Except.pure]
  | error e => simp

/-- The notes aside, to run a script with notes is to run it. -/
theorem executeNoting_run (r : Runner) (name script : Text) :
    Prod.fst <$> r.executeNoting name script = r.execute script := by
  rw [executeNoting, execute]
  cases readProgram script with
  | error e => rfl
  | ok program =>
    have hrun := @Statement.notingAll_run ⟨r.settings, r.process, []⟩ name program 1 r.seeds
    simp only [bind, Except.bind, ← hrun]
    cases Statement.notingAll ⟨r.settings, r.process, []⟩ name 1 r.seeds program <;> rfl

theorem exists_executeNoting (name : Text) (h : r.execute script = .ok w) :
    ∃ ran, r.executeNoting name script = .ok (w, ran) := by
  rw [← executeNoting_run r name script] at h
  cases hn : r.executeNoting name script with
  | error e =>
    rw [hn] at h
    cases h
  | ok noted =>
    rw [hn] at h
    cases h
    exact ⟨noted.2, rfl⟩

end Runner

end ConfigScript
