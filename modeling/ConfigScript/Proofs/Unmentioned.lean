import ConfigScript.Proofs.Mentions
import ConfigScript.Proofs.Unseen
/-!
# Variables that a program does not name

Two runs of a program from variables that differ in one that it does not name go the same way. Statement by
statement they see the same values, so they fail in the same place, or leave variables that again differ in that
one only, which each of them has kept (`Statement.runAll_apart`, `Statement.runAll_unmentioned`).
-/

namespace ConfigScript

/-! ## The results of two runs -/

/-- Both succeed, with results that are related, or both fail with the same error. -/
inductive SameOutcome {ε α β : Type} (R : α → β → Prop) : Except ε α → Except ε β → Prop
  | ok {a : α} {b : β} : R a b → SameOutcome R (.ok a) (.ok b)
  | error (e : ε) : SameOutcome R (.error e) (.error e)

namespace SameOutcome

variable {ε α β γ δ : Type} {R : α → β → Prop} {S : γ → δ → Prop} {x : Except ε α} {y : Except ε β}

theorem bind {f : α → Except ε γ} {g : β → Except ε δ} (h : SameOutcome R x y)
    (hfg : ∀ a b, x = .ok a → R a b → SameOutcome S (f a) (g b)) : SameOutcome S (x >>= f) (y >>= g) := by
  cases h with
  | ok hab => exact hfg _ _ rfl hab
  | error e => exact .error e

/-- Two steps behind one result. -/
theorem bind_self {f : α → Except ε γ} {g : α → Except ε δ} (hfg : ∀ a, x = .ok a → SameOutcome S (f a) (g a)) :
    SameOutcome S (x >>= f) (x >>= g) := by
  cases x with
  | ok a => exact hfg a rfl
  | error e => exact .error e

theorem onLine {x : Except Fault α} {y : Except Fault β} (h : SameOutcome R x y) (line : Nat) :
    SameOutcome R (ConfigScript.onLine line x) (ConfigScript.onLine line y) := by
  cases h with
  | ok hab => exact .ok hab
  | error fault => exact .error (RuntimeError.mk line fault)

end SameOutcome

namespace Statement

variable {s : Surroundings} {n : Text} {held held' : Option Value} {w w' : Workspace}

/-- The variables are the same but for one, of which these are the values, if it has any. -/
structure ApartAt (n : Text) (held held' : Option Value) (w w' : Workspace) : Prop where
  same : ∀ m, m ≠ n → w'.lookup m = w.lookup m
  left : w.lookup n = held
  right : w'.lookup n = held'

/-! ## One run beside the other -/

theorem ApartAt.assign (ha : ApartAt n held held' w w') {target : Text} (ht : target ≠ n) (path : List Text) (v : Value) :
    SameOutcome (ApartAt n held held') (w.assign target path v) (w'.assign target path v) := by
  unfold Workspace.assign
  rw [ha.same target ht]
  refine SameOutcome.bind_self fun new _ => .ok ?_
  refine ⟨fun m hm => ?_, ?_, ?_⟩
  · by_cases heq : m = target
    · subst heq
      rw [Table.lookup_insert_self, Table.lookup_insert_self]
    · rw [Table.lookup_insert_of_ne heq, Table.lookup_insert_of_ne heq]
      exact ha.same m hm
  · rw [Table.lookup_insert_of_ne ht.symm, ha.left]
  · rw [Table.lookup_insert_of_ne ht.symm, ha.right]

theorem ApartAt.eval (ha : ApartAt n held held' w w') {e : Expr} (hb : Expr.BlindUnder (· = n) w e.parts) :
    e.eval (within s w') = e.eval (within s w) :=
  Expr.eval_congr ha.same e hb

/-- No evaluation of these sees the variable. -/
def Unseen (n : Text) (evaluations : List (Workspace × Expr)) : Prop :=
  ∀ p ∈ evaluations, Expr.BlindUnder (· = n) p.1 p.2.parts

mutual

theorem run_apart : (st : Statement) → {w w' : Workspace} → ApartAt n held held' w w' → Unseen n (evaluated s w st) →
    (∀ x ∈ st.targets, x.1 ≠ n) → SameOutcome (ApartAt n held held') (run s w st) (run s w' st)
  | assign line target path e, w, w', ha, hb, ht => by
    rw [run, run, ha.eval (hb (w, e) (by simp [evaluated]))]
    exact SameOutcome.onLine (SameOutcome.bind_self fun v _ => ha.assign (ht (target, path) (by simp [targets])) path v) line
  | eval line e, w, w', ha, hb, _ => by
    rw [run, run, ha.eval (hb (w, e) (by simp [evaluated]))]
    exact SameOutcome.onLine (SameOutcome.bind_self fun _ _ => .ok ha) line
  | cond line branches none, w, w', ha, hb, ht => by
    rw [run, run]
    rw [evaluated] at hb
    refine SameOutcome.bind (runBranches_apart branches line ha (fun p hp => hb p (List.mem_append_left _ hp))
      fun x hx => ht x (List.mem_append_left _ hx)) fun after after' _ hafter => ?_
    cases hafter with
    | some hafter => exact .ok hafter
    | none => exact .ok ha
  | cond line branches (some body), w, w', ha, hb, ht => by
    rw [run, run]
    rw [evaluated] at hb
    refine SameOutcome.bind (runBranches_apart branches line ha (fun p hp => hb p (List.mem_append_left _ hp))
      fun x hx => ht x (List.mem_append_left _ hx)) fun after after' hbranches hafter => ?_
    rw [hbranches] at hb
    cases hafter with
    | some hafter => exact .ok hafter
    | none =>
      exact runAll_apart body ha (fun p hp => hb p (List.mem_append_right _ hp))
        fun x hx => ht x (List.mem_append_right _ hx)

theorem runBranches_apart : (branches : List Branch) → (line : Nat) → {w w' : Workspace} →
    ApartAt n held held' w w' → Unseen n (evaluatedBranches s w line branches) →
    (∀ x ∈ branchTargets branches, x.1 ≠ n) →
    SameOutcome (Option.Rel (ApartAt n held held')) (runBranches s w line branches) (runBranches s w' line branches)
  | [], line, w, w', _, _, _ => by
    rw [runBranches, runBranches]
    exact .ok .none
  | .mk condition body :: rest, line, w, w', ha, hb, ht => by
    rw [runBranches, runBranches, ha.eval (hb (w, condition) (by simp [evaluatedBranches]))]
    refine SameOutcome.bind_self fun holds hholds => ?_
    rw [evaluatedBranches, onLine_eq_ok.1 hholds] at hb
    cases holds with
    | true =>
      exact SameOutcome.bind (runAll_apart body ha (fun p hp => hb p (List.mem_cons_of_mem _ hp))
        fun x hx => ht x (List.mem_append_left _ hx)) fun _ _ _ hafter => .ok (.some hafter)
    | false =>
      exact runBranches_apart rest line ha (fun p hp => hb p (List.mem_cons_of_mem _ hp))
        fun x hx => ht x (List.mem_append_right _ hx)

/-- Runs of statements that neither see nor assign the variable keep their variables apart in it only. -/
theorem runAll_apart : (ss : List Statement) → {w w' : Workspace} → ApartAt n held held' w w' →
    Unseen n (evaluatedAll s w ss) → (∀ x ∈ bodyTargets ss, x.1 ≠ n) →
    SameOutcome (ApartAt n held held') (runAll s w ss) (runAll s w' ss)
  | [], w, w', ha, _, _ => by
    rw [runAll, runAll]
    exact .ok ha
  | st :: rest, w, w', ha, hb, ht => by
    rw [runAll, runAll]
    rw [evaluatedAll] at hb
    refine SameOutcome.bind (run_apart st ha (fun p hp => hb p (List.mem_append_left _ hp))
      fun x hx => ht x (List.mem_append_left _ hx)) fun after after' hafter hsame => ?_
    rw [hafter] at hb
    exact runAll_apart rest hsame (fun p hp => hb p (List.mem_append_right _ hp))
      fun x hx => ht x (List.mem_append_right _ hx)

end

/-! ## Programs -/

mutual

/-- What a statement evaluates are expressions of it. -/
theorem evaluated_expressions : (st : Statement) → (w : Workspace) → ∀ p ∈ evaluated s w st, p.2 ∈ st.expressions
  | assign line target path e, w, p, hp => by
    rw [evaluated, List.mem_singleton] at hp
    simp [hp, expressions]
  | eval line e, w, p, hp => by
    rw [evaluated, List.mem_singleton] at hp
    simp [hp, expressions]
  | cond line branches none, w, p, hp => by
    rw [evaluated] at hp
    rcases List.mem_append.1 hp with hp | hp
    · exact List.mem_append_left _ (evaluatedBranches_expressions branches line w p hp)
    · split at hp <;> cases hp
  | cond line branches (some body), w, p, hp => by
    rw [evaluated] at hp
    rcases List.mem_append.1 hp with hp | hp
    · exact List.mem_append_left _ (evaluatedBranches_expressions branches line w p hp)
    · split at hp
      · exact List.mem_append_right _ (evaluatedAll_expressions body w p hp)
      · cases hp

theorem evaluatedBranches_expressions : (branches : List Branch) → (line : Nat) → (w : Workspace) →
    ∀ p ∈ evaluatedBranches s w line branches, p.2 ∈ branchExpressions branches
  | [], line, w, p, hp => by
    rw [evaluatedBranches] at hp
    cases hp
  | .mk condition body :: rest, line, w, p, hp => by
    rw [evaluatedBranches] at hp
    rcases List.mem_cons.1 hp with rfl | hp
    · exact List.mem_cons_self
    refine List.mem_cons_of_mem _ (List.mem_append.2 ?_)
    split at hp
    · exact .inl (evaluatedAll_expressions body w p hp)
    · exact .inr (evaluatedBranches_expressions rest line w p hp)
    · cases hp

theorem evaluatedAll_expressions : (ss : List Statement) → (w : Workspace) →
    ∀ p ∈ evaluatedAll s w ss, p.2 ∈ bodyExpressions ss
  | [], w, p, hp => by
    rw [evaluatedAll] at hp
    cases hp
  | st :: rest, w, p, hp => by
    rw [evaluatedAll] at hp
    rcases List.mem_append.1 hp with hp | hp
    · exact List.mem_append_left _ (evaluated_expressions st w p hp)
    · split at hp
      · exact List.mem_append_right _ (evaluatedAll_expressions rest _ p hp)
      · cases hp

end

variable {program : Program}

/-- The program neither reads nor calls nor assigns what has this name. -/
structure Omits (n : Text) (program : Program) : Prop where
  expressions : ∀ e ∈ bodyExpressions program, ¬ e.Mentions n
  targets : ∀ x ∈ bodyTargets program, x.1 ≠ n

/-- None of these evaluations calls `exist`: where it has arguments, it is a variable. -/
def NeverAsks (evaluations : List (Workspace × Expr)) : Prop :=
  ∀ p ∈ evaluations, ∀ args, .apply (.name "exist".toList) args ∈ p.2.parts →
    (p.1.lookup "exist".toList).isSome = true

/-- Where `exist` has arguments nowhere in the program, no evaluation calls it. -/
theorem neverAsks_of_expressions (h : ∀ e ∈ bodyExpressions program, ∀ args,
    .apply (.name "exist".toList) args ∉ e.parts) (s : Surroundings) (w : Workspace) :
    NeverAsks (evaluatedAll s w program) := fun p hp args hm =>
  (h p.2 (evaluatedAll_expressions program w p hp) args hm).elim

/-- A program that omits a variable runs to its end whatever the variable holds, or not at all: from variables that
differ in it only, both runs succeed, with variables that differ in it only, or both fail with the same fault on the
same line. Each run keeps the variable as it was. -/
theorem runAll_unmentioned (hn : Omits n program) (hexist : NeverAsks (evaluatedAll s w program))
    (hw : ∀ m, m ≠ n → w'.lookup m = w.lookup m) :
    (∃ after after', runAll s w program = .ok after ∧ runAll s w' program = .ok after' ∧
      (∀ m, m ≠ n → after'.lookup m = after.lookup m) ∧
      after.lookup n = w.lookup n ∧ after'.lookup n = w'.lookup n) ∨
    ∃ error, runAll s w program = .error error ∧ runAll s w' program = .error error := by
  have hunseen : Unseen n (evaluatedAll s w program) := fun p hp =>
    ⟨by rintro m rfl; exact hn.expressions p.2 (evaluatedAll_expressions program w p hp), hexist p hp⟩
  have h := runAll_apart program ⟨hw, rfl, rfl⟩ hunseen hn.targets
  generalize runAll s w program = x at h ⊢
  generalize runAll s w' program = y at h ⊢
  cases h with
  | @ok after after' h => exact .inl ⟨after, after', rfl, rfl, h.same, h.left, h.right⟩
  | error error => exact .inr ⟨error, rfl, rfl⟩

/-- If `b` holds, then the field `f` of `c` is set to it, and otherwise `d` is evaluated. -/
def branching : Program :=
  [.cond 1 [.mk (.name ['b']) [.assign 2 ['c'] [['f']] (.name ['b'])]] (some [.eval 3 (.name ['d'])])]

/-- The branch is taken and the field is set whether `a` is one or not bound. -/
theorem runAll_unmentioned_branching :
    let s : Surroundings := ⟨{}, [], []⟩
    let w : Workspace := [(['a'], .double 1.0), (['b'], .logical true)]
    let w' : Workspace := [(['b'], .logical true)]
    Omits ['a'] branching ∧ NeverAsks (evaluatedAll s w branching) ∧ (∀ m, m ≠ ['a'] → w'.lookup m = w.lookup m) ∧
    ∃ after after', runAll s w branching = .ok after ∧ runAll s w' branching = .ok after' ∧
      (∀ m, m ≠ ['a'] → after'.lookup m = after.lookup m) ∧
      after.lookup ['a'] = some (.double 1.0) ∧ after'.lookup ['a'] = none := by
  intro s w w'
  have hexpressions : bodyExpressions branching = [.name ['b'], .name ['b'], .name ['d']] := rfl
  have hn : Omits ['a'] branching := by
    refine ⟨?_, ?_⟩
    · simp [hexpressions, Expr.Mentions, Expr.parts]
    · simp [branching, bodyTargets, targets, branchTargets, otherwiseTargets]
  have hexist : NeverAsks (evaluatedAll s w branching) :=
    neverAsks_of_expressions (by simp [hexpressions, Expr.parts]) s w
  have hw : ∀ m, m ≠ ['a'] → w'.lookup m = w.lookup m := by
    intro m hm
    simp [w, w', List.lookup_cons, beq_eq_false_iff_ne.2 hm]
  refine ⟨hn, hexist, hw, ?_⟩
  rcases runAll_unmentioned hn hexist hw with h | ⟨error, h, -⟩
  · exact h
  · have hrun : runAll s w branching = .ok _ := rfl
    cases hrun.symm.trans h

end Statement

end ConfigScript
