import ConfigScript.Proofs.Denotations
import ConfigScript.Proofs.Edits
import ConfigScript.Proofs.Noting
import ConfigScript.Proofs.Retraced
import ConfigScript.Proofs.Unseen
/-!
# Traced runs

A traced script runs beside the script: where an assignment to the variable runs in one, its id is appended to
the trace in the other, and the other variables stay the same (`Retraced.noting`). So the trace tells which of
the assignments ran, and in which order.
-/

namespace ConfigScript

/-! ## The trace -/

namespace Edit

open Number (nearest)

/-- What the trace holds when these ids have been appended to it, one after the other. -/
def traceOf : List Nat → Value
  | [] => .empty
  | id :: ids => .ofMatrix (.row ((id :: ids).map (nearest · 0)).toArray)

variable {s : Surroundings} {ids : List Nat} {id : Nat}

theorem beside_traceOf (hroom : ids.length < Matrix.maxElements) :
    Value.beside [traceOf ids, .double (nearest id 0)] = .ok (traceOf (ids ++ [id])) := by
  cases ids with
  | nil => rfl
  | cons first ids =>
    -- a row and one element more
    let xs := ((first :: ids).map (nearest · 0)).toArray
    have hr : ∀ m ∈ [Matrix.row xs, .single (nearest id 0)], m.rows = 1 := by
      simp [Matrix.row, Matrix.single]
    have he : ∀ m ∈ [Matrix.row xs, .single (nearest id 0)], m.isEmpty = false := by
      simp [xs, Matrix.isEmpty, Matrix.row, Matrix.single]
    have hfits : Matrix.fits 1 (Matrix.width [.row xs, .single (nearest id 0)]) = true := by
      simpa [xs, Matrix.fits, Matrix.width, Matrix.row, Matrix.single, Nat.succ_le_iff] using hroom
    have hbeside := Value.beside_ofMatrix (List.cons_ne_nil _ _) he hr hfits
    rw [List.map_cons, List.map_cons, List.map_nil, Value.ofMatrix_single] at hbeside
    rw [traceOf, hbeside]
    refine congrArg (fun m => Except.ok (Value.ofMatrix m)) (Matrix.eq_of_data rfl ?_ ?_)
    · simp [xs, Matrix.beside, Matrix.width, Matrix.row, Matrix.single]
    · simp [xs, Matrix.beside, Matrix.besideData, Matrix.rowList, Matrix.row, Matrix.single]

theorem eval_traceExpr (h : s.workspace.lookup traceName = some (traceOf ids))
    (hroom : ids.length < Matrix.maxElements) : (traceExpr id).eval s = .ok (traceOf (ids ++ [id])) := by
  simp only [traceExpr, Expr.eval, Expr.evalRows, Expr.evalList, h]
  have hrows : [[traceOf ids, .double (nearest id 0)]].mapM Value.beside = .ok [traceOf (ids ++ [id])] := by
    rw [List.mapM_cons, beside_traceOf hroom]
    rfl
  show ([[traceOf ids, .double (nearest id 0)]].mapM Value.beside >>= Value.stacked) = _
  rw [hrows]
  rfl

theorem tracedIds_of_lookup {w : Workspace} (h : w.lookup traceName = some (traceOf ids)) :
    tracedIds w = if ids = [] then .error .nothingRan else .ok (ids.map (nearest · 0)) := by
  unfold tracedIds
  rw [h]
  match ids with
  | [] => rfl
  | [id] => rfl
  | first :: second :: ids =>
    have hmatrix : traceOf (first :: second :: ids) =
        .matrix (.row ((first :: second :: ids).map (nearest · 0)).toArray) := by
      simp [traceOf, Value.ofMatrix, Matrix.scalar?, Matrix.row]
    rw [hmatrix]
    simp [Matrix.isEmpty, Matrix.row]

theorem idOf_nearest {count : Nat} (hpos : 1 ≤ id) (hid : id ≤ count) (hcount : count < 2 ^ 53) :
    idOf count (nearest id 0) = .ok id := by
  have hsmall : id < 2 ^ 53 := Nat.lt_of_le_of_lt hid hcount
  have hx : Number.IsNat (nearest id 0) id := Number.isNat_nearest (Number.short_of_lt hsmall) (by omega)
  have hy : Number.IsNat (Number.ofNat count) count := Number.isNat_ofNat (Number.short_of_lt hcount) (by omega)
  rw [idOf, hx.isWhole, decide_eq_true (Number.isNat_one.le hx hpos), decide_eq_true (hx.le hy hid),
    Number.toNat_of_isNat hx (by omega)]
  rfl

/-- The live assignment is the one whose id was appended last. -/
theorem liveId_of_lookup {w : Workspace} {count : Nat} (h : w.lookup traceName = some (traceOf ids))
    (hids : ∀ id ∈ ids, 1 ≤ id ∧ id ≤ count) (hcount : count < 2 ^ 53) :
    liveId w count =
      match ids.getLast? with
      | some id => .ok id
      | none => .error .nothingRan := by
  rw [liveId, tracedIds_of_lookup h]
  by_cases hnil : ids = []
  · subst hnil
    rfl
  · rw [if_neg hnil, List.getLast?_eq_some_getLast hnil]
    have hmapM : (ids.map (nearest · 0)).mapM (idOf count) = .ok ids :=
      Value.mapM_eq_ok.2 (List.forall₂_map_left_iff.2 (List.forall₂_same.2 fun id hid =>
        idOf_nearest (hids id hid).1 (hids id hid).2 hcount))
    show ((ids.map (nearest · 0)).mapM (idOf count) >>= fun ids => pure (ids.getLast?.getD 0)) = _
    rw [hmapM]
    show Except.ok (ids.getLast?.getD 0) = _
    rw [List.getLast?_eq_some_getLast hnil]
    rfl

end Edit

/-! ## One run beside the other -/

namespace Program

open Edit (traceOf traceExpr)
open Statement

variable {s : Surroundings} {name : Text} {k line : Nat} {w w' after : Workspace} {ran : List Nat}

/-- The variable, or the trace. -/
def Hidden (name n : Text) : Prop := n = name ∨ n = traceName

/-- No expression of the part sees the variable or the trace. It assigns neither a field of the variable nor the
trace. -/
structure Spelled.Hides (name : Text) (v : Spelled) : Prop where
  expressions : ∀ e ∈ v.expressions, Expr.Blind (Hidden name) e.parts
  targets : ∀ x ∈ v.targets, x.1 ≠ traceName ∧ (x.1 = name → x.2 = [])

/-- The variables of a traced run beside those of the run itself: they are the same but for the variable and the
trace, and the trace holds these ids. -/
structure Alongside (name : Text) (ids : List Nat) (w w' : Workspace) : Prop where
  same : ∀ n, ¬ Hidden name n → w'.lookup n = w.lookup n
  trace : w'.lookup traceName = some (traceOf ids)

variable {ids : List Nat} {v v' : Spelled} {target : Text} {path : List Text} {value : Value}

theorem Alongside.assign (ha : Alongside name ids w w') (ht : ¬ Hidden name target)
    (h : w.assign target path value = .ok after) :
    ∃ after', w'.assign target path value = .ok after' ∧ Alongside name ids after after' := by
  obtain ⟨new, hnew, h⟩ := bind_eq_ok.1 h
  cases h
  have hassign : w'.assign target path value = .ok (Table.insert target new w') :=
    bind_eq_ok.2 ⟨new, by rw [ha.same target ht]; exact hnew, rfl⟩
  refine ⟨_, hassign, fun n hn => ?_, ?_⟩
  · by_cases heq : n = target
    · subst heq
      rw [Table.lookup_insert_self, Table.lookup_insert_self]
    · rw [Table.lookup_insert_of_ne heq, Table.lookup_insert_of_ne heq]
      exact ha.same n hn
  · rw [Table.lookup_insert_of_ne fun heq => ht (.inr heq.symm)]
    exact ha.trace

/-- An id is appended where the variable is assigned. -/
theorem Alongside.append (ha : Alongside name ids w w') (id : Nat) (h : w.assign name [] value = .ok after) :
    ∃ after', w'.assign traceName [] (traceOf (ids ++ [id])) = .ok after' ∧
      Alongside name (ids ++ [id]) after after' := by
  obtain ⟨new, -, h⟩ := bind_eq_ok.1 h
  cases h
  refine ⟨Table.insert traceName (traceOf (ids ++ [id])) w', rfl, fun n hn => ?_, Table.lookup_insert_self ..⟩
  rw [Table.lookup_insert_of_ne fun heq => hn (.inr heq), Table.lookup_insert_of_ne fun heq => hn (.inl heq)]
  exact ha.same n hn

/-- Ids that number the assignments of two parts number those of each. -/
theorem range'_split {ids₁ ids₂ : List Nat} {a b : Nat} (h : ids₁ ++ ids₂ = List.range' k (a + b))
    (h₁ : ids₁.length ≤ a) (h₂ : ids₂.length ≤ b) : ids₁ = List.range' k a ∧ ids₂ = List.range' (k + a) b := by
  have hlength := congrArg List.length h
  rw [List.length_append, List.length_range'] at hlength
  rw [← List.range'_append_1] at h
  exact List.append_inj h (by rw [List.length_range']; omega)

theorem Spelled.Hides.first {st : Statement} {ss : List Statement} (h : Spelled.Hides name (.body (st :: ss))) :
    Spelled.Hides name (.one st) ∧ Spelled.Hides name (.body ss) :=
  ⟨⟨fun e he => h.expressions e (List.mem_append_left _ he), fun x hx => h.targets x (List.mem_append_left _ hx)⟩,
    ⟨fun e he => h.expressions e (List.mem_append_right _ he), fun x hx => h.targets x (List.mem_append_right _ hx)⟩⟩

theorem Spelled.Hides.branch {condition : Expr} {body : List Statement} {bs : List Branch}
    {otherwise : Option (List Statement)} (h : Spelled.Hides name (.tail (.mk condition body :: bs) otherwise)) :
    Expr.Blind (Hidden name) condition.parts ∧ Spelled.Hides name (.body body) ∧
      Spelled.Hides name (.tail bs otherwise) := by
  obtain ⟨he, ht⟩ := h
  simp only [Spelled.expressions, branchExpressions, Spelled.targets, branchTargets, List.cons_append,
    List.append_assoc, List.mem_cons, List.mem_append] at he ht
  refine ⟨he condition (.inl rfl), ⟨fun e h => he e (.inr (.inl h)), fun x h => ht x (.inl h)⟩,
    ⟨fun e h => he e (.inr (.inr (List.mem_append.1 h))), fun x h => ht x (.inr (List.mem_append.1 h))⟩⟩

/-- By induction on how the program is retraced: where the part runs, the retraced part runs beside it, and the ids
of the assignments that run are appended to the trace. -/
theorem Retraced.noting (h : Retraced name ids v v') (hv : v.Hides name)
    (hids : ids = List.range' k (v.assignments name))
    {before : List Nat} (hroom : before.length + v.assignments name ≤ Matrix.maxElements)
    (hrun : v.noting s name k w line = .ok (after, ran)) (ha : Alongside name before w w') (k' line' : Nat) :
    ∃ after' ran', v'.noting s name k' w' line' = .ok (after', ran') ∧ Alongside name (before ++ ran) after after' := by
  induction h generalizing k w w' after ran line before k' line' with
  | @assign line₁ line₂ target path e =>
    obtain ⟨⟨v, heval, hassign⟩, rfl⟩ := noting_assign.1 hrun
    have hplain : (target, path) ≠ (name, []) := by
      intro heq
      rw [Spelled.assignments, Spelled.targets, targets, heq] at hids
      simp at hids
    obtain ⟨htrace, hfield⟩ := hv.targets (target, path) (by simp [Spelled.targets, targets])
    have htarget : ¬ Hidden name target := by
      rintro (rfl | heq)
      · exact hplain (Prod.ext rfl (hfield rfl))
      · exact htrace heq
    have heval' : e.eval (within s w') = .ok v := by
      rw [Expr.eval_congr ha.same e ((hv.expressions e (by simp [Spelled.expressions, expressions])).under w), heval]
    obtain ⟨after', hassign', ha'⟩ := ha.assign htarget hassign
    rw [if_neg hplain, List.append_nil]
    exact ⟨after', _, noting_assign.2 ⟨⟨v, heval', hassign'⟩, rfl⟩, ha'⟩
  | @traced line₁ line₂ e id =>
    obtain ⟨⟨v, -, hassign⟩, rfl⟩ := noting_assign.1 hrun
    rw [Spelled.assignments_plain] at hids hroom
    obtain rfl : id = k := List.singleton_inj.1 hids
    have heval : (traceExpr id).eval (within s w') = .ok (traceOf (before ++ [id])) :=
      Edit.eval_traceExpr ha.trace (by omega)
    obtain ⟨after', hassign', ha'⟩ := ha.append id hassign
    rw [if_pos rfl]
    exact ⟨after', _, noting_assign.2 ⟨⟨_, heval, hassign'⟩, rfl⟩, ha'⟩
  | @eval line₁ line₂ e =>
    rw [Spelled.noting, noting_eval] at hrun
    obtain ⟨⟨v, heval⟩, rfl, rfl⟩ := hrun
    have heval' : e.eval (within s w') = .ok v := by
      rw [Expr.eval_congr ha.same e ((hv.expressions e (by simp [Spelled.expressions, expressions])).under _), heval]
    have hrun' : Statement.noting s name k' w' (.eval line₂ e) = .ok (w', []) := noting_eval.2 ⟨⟨v, heval'⟩, rfl, rfl⟩
    rw [List.append_nil]
    exact ⟨w', _, hrun', ha⟩
  | cond _ ih =>
    rw [noting_cond] at hrun ⊢
    exact ih ⟨hv.expressions, hv.targets⟩ hids hroom hrun ha k' _
  | @branch ids₁ ids₂ condition body body' bs bs' otherwise otherwise' h₁ h₂ ih₁ ih₂ =>
    obtain ⟨hcondition, hbody, htail⟩ := hv.branch
    rw [Spelled.assignments_branch] at hids hroom
    obtain ⟨hids₁, hids₂⟩ := range'_split hids h₁.length_le h₂.length_le
    obtain ⟨holds, hholds⟩ := holds_of_noting hrun
    have hholds' : (condition.eval (within s w') >>= Value.holds) = .ok holds := by
      rw [Expr.eval_congr ha.same condition (hcondition.under w), hholds]
    rw [noting_branch hholds] at hrun
    rw [noting_branch hholds']
    cases holds with
    | true =>
      have hrun₁ : (Spelled.body body).noting s name k w line = .ok (after, ran) := hrun
      exact ih₁ hbody hids₁ (by omega) hrun₁ ha k' line'
    | false => exact ih₂ htail hids₂ (by omega) hrun ha _ _
  | @otherwise _ body _ _ ih =>
    have hrun₁ : (Spelled.body body).noting s name k w line = .ok (after, ran) := hrun
    exact ih ⟨hv.expressions, hv.targets⟩ hids hroom hrun₁ ha k' line'
  | last | nil =>
    cases hrun
    rw [List.append_nil]
    exact ⟨w', [], rfl, ha⟩
  | @cons ids₁ ids₂ st st' ss ss' h₁ h₂ ih₁ ih₂ =>
    obtain ⟨hfirst, hrest⟩ := hv.first
    rw [Spelled.assignments_cons] at hids hroom
    obtain ⟨hids₁, hids₂⟩ := range'_split hids h₁.length_le h₂.length_le
    obtain ⟨middle, first, more, hst, hss, rfl⟩ := noting_cons.1 hrun
    have hlength : first.length ≤ (Spelled.one st).assignments name := by
      simpa [Spelled.assignments, Spelled.targets] using (noting_sublist st k w middle first hst).length_le
    have hrun₁ : (Spelled.one st).noting s name k w line = .ok (middle, first) := hst
    have hrun₂ : (Spelled.body ss).noting s name _ middle line = .ok (after, more) := hss
    obtain ⟨middle', first', hst', ha₁⟩ := ih₁ hfirst hids₁ (by omega) hrun₁ ha k' line'
    obtain ⟨after', more', hss', ha₂⟩ := ih₂ hrest hids₂ (by rw [List.length_append]; omega) hrun₂ ha₁
      (k' + st'.targets.count (name, [])) line'
    rw [← List.append_assoc]
    exact ⟨after', first' ++ more', noting_cons.2 ⟨middle', first', more', hst', hss', rfl⟩, ha₂⟩

end Program

/-! ## The live assignment -/

namespace Edit

open Token Program

variable {script name : Text} {toks : List Token} {program : Program}

/-- The occurrences of the variable `name` in a script are all its plain assignments, fewer than a matrix has
elements, and running the script shows nothing else of the variable or of a trace. -/
structure Traceable (name script : Text) (toks : List Token) (program : Program) : Prop where
  checked : checkTraceable script = .ok ()
  tokens : tokenize script = .ok toks
  noTranspose : ∀ x ∈ toks, x.kind ≠ .transpose
  continues : ContinuesOutside script
  parsed : ofTokens toks = .ok program
  covers : Covers name toks (Occurrence.find (sanitize script) name)
  all : (Occurrence.find (sanitize script) name).length = (Spelled.body program).assignments name
  few : (Occurrence.find (sanitize script) name).length < Matrix.maxElements
  unmentioned : ∀ e ∈ Statement.bodyExpressions program, ¬ e.Mentions name
  noField : ∀ x ∈ Statement.bodyTargets program, x.1 = name → x.2 = []
  noExist : ∀ e ∈ Statement.bodyExpressions program, ∀ args, .apply (.name "exist".toList) args ∉ e.parts

/-- The trace and the variable stay unseen. -/
theorem Traceable.hides (h : Traceable name script toks program) : Spelled.Hides name (.body program) := by
  obtain ⟨-, hno⟩ := checkTraceable_eq_ok.1 h.checked
  have hnamed := named_of_tokenize h.tokens h.parsed hno
  refine ⟨fun e he => ⟨fun n hn hm => ?_, h.noExist e he⟩, fun x hx => ⟨(hnamed.targets x hx).1, h.noField x hx⟩⟩
  rcases hn with rfl | rfl
  · exact h.unmentioned e he hm
  · exact hnamed.expressions e he traceName hm rfl

end Edit

namespace Runner

open Edit (Traceable traceOf instrument sanitize Occurrence)

variable {σ : Type} {script name : Text} {toks : List Token} {program : Program} {w : Workspace}

/-- If a script runs, so does its traced copy, and it binds the same variables but for `name` and the trace. The
trace tells the occurrences that ran, in order, so that the last of them is found to be live; none is if none ran. -/
theorem execute_instrument (r : Runner) (hn : isIdentifier name = true) (h : Traceable name script toks program)
    (hrun : r.execute script = .ok w) :
    let occurrences := Occurrence.find (sanitize script) name
    ∃ ran w', r.executeNoting name script = .ok (w, ran) ∧
      r.execute (instrument (sanitize script) occurrences) = .ok w' ∧
      (∀ n, n ≠ name → n ≠ traceName → w'.lookup n = w.lookup n) ∧
      w'.lookup traceName = some (traceOf ran) ∧
      ∀ world : World σ, Editor.resolveLive r.engine (instrument (sanitize script) occurrences) occurrences.length
          world =
        match ran.getLast? with
        | some id => .ok id world
        | none => .error (.inconsistent .nothingRan) world := by
  intro occurrences
  -- the script with notes
  obtain ⟨ran, hnoted⟩ := exists_executeNoting name hrun
  obtain ⟨p, hp, hnoting⟩ := executeNoting_eq_ok.1 hnoted
  obtain rfl : program = p :=
    Except.ok.inj ((readProgram_eq_ok.2 ⟨toks, h.tokens, h.parsed⟩).symm.trans hp)
  -- its traced copy beside it
  obtain ⟨line, program', hread, hretraced⟩ :=
    Edit.readProgram_instrument hn h.checked h.tokens h.noTranspose h.continues h.parsed h.covers
  rw [Edit.find_ids, h.all] at hretraced
  have hstart : Program.Alongside name [] r.seeds (Table.insert traceName .empty r.seeds) :=
    ⟨fun n hn => Table.lookup_insert_of_ne (fun heq => hn (.inr heq)) .., Table.lookup_insert_self ..⟩
  have hroom : ([] : List Nat).length + (Program.Spelled.body program).assignments name ≤ Matrix.maxElements := by
    rw [← h.all, List.length_nil, Nat.zero_add]
    exact Nat.le_of_lt h.few
  have hbody : (Program.Spelled.body program).noting ⟨r.settings, r.process, []⟩ name 1 r.seeds 0 = .ok (w, ran) :=
    hnoting
  obtain ⟨w', ran', hnoting', halong⟩ := hretraced.noting h.hides rfl hroom hbody hstart 1 0
  have hexec : r.execute (instrument (sanitize script) occurrences) = .ok w' := by
    refine execute_eq_ok.2 ⟨_, hread, ?_⟩
    show Statement.runAll _ (Table.insert traceName .empty r.seeds) program' = .ok w'
    exact Statement.runAll_of_notingAll hnoting'
  refine ⟨ran, w', hnoted, hexec, fun n h₁ h₂ => halong.same n (not_or.2 ⟨h₁, h₂⟩), halong.trace, fun world => ?_⟩
  have hids : ∀ id ∈ ran, 1 ≤ id ∧ id ≤ occurrences.length := by
    intro id hid
    have hmem := List.mem_range'_1.1 ((Statement.notingAll_sublist program 1 r.seeds w ran hnoting).subset hid)
    have hall : occurrences.length = (Statement.bodyTargets program).count (name, []) := h.all
    omega
  have hcount : occurrences.length < 2 ^ 53 := Nat.lt_trans h.few (by decide)
  have hlive := Edit.liveId_of_lookup halong.trace hids hcount
  have hasked : r.engine.execute (instrument (sanitize script) occurrences) world = (.ok w', world) :=
    congrArg (·, world) hexec
  rw [List.nil_append] at hlive
  cases hlast : ran.getLast? with
  | some id =>
    rw [hlast] at hlive
    exact Editor.resolveLive_run_ok.2 ⟨w', hasked, hlive⟩
  | none =>
    rw [hlast] at hlive
    refine Editor.bind_run_error.2 (.inr ⟨w', world, Editor.ask_run_ok.2 hasked, ?_⟩)
    exact Editor.lift_run_error.2 ⟨.nothingRan, hlive, rfl, rfl⟩

/-! ### A branch that does not run -/

/-- The second assignment does not run, so the first one is live. -/
def skippedScript : Text := "a = 'x';\nif false\n  a = 'y';\nend".toList

def skippedTokens : List Token :=
  [⟨.word "a".toList, 1, 0⟩, ⟨.assign, 1, 2⟩, ⟨.quoted "x".toList, 1, 4⟩, ⟨.semicolon, 1, 7⟩, ⟨.newline, 1, 8⟩,
    ⟨.word "if".toList, 2, 9⟩, ⟨.word "false".toList, 2, 12⟩, ⟨.newline, 2, 17⟩, ⟨.word "a".toList, 3, 20⟩,
    ⟨.assign, 3, 22⟩, ⟨.quoted "y".toList, 3, 24⟩, ⟨.semicolon, 3, 27⟩, ⟨.newline, 3, 28⟩, ⟨.word "end".toList, 4, 29⟩]

def skippedProgram : Program :=
  [.assign 1 "a".toList [] (.quoted "x".toList),
    .cond 2 [.mk (.name "false".toList) [.assign 3 "a".toList [] (.quoted "y".toList)]] none]

theorem find_skippedScript :
    Occurrence.find (sanitize skippedScript) "a".toList = [⟨0, 8, 1⟩, ⟨20, 28, 2⟩] := by
  decide +kernel

theorem covers_skippedTokens : Edit.Covers "a".toList skippedTokens [⟨0, 8, 1⟩, ⟨20, 28, 2⟩] := by
  have hquoted : ∀ content line offset,
      Program.ReadsExpr [⟨.quoted content, line, offset⟩] (.quoted content) [] := fun content line offset =>
    (@Program.expression_eq_ok 0 _ _ _).1 ⟨Nat.zero_lt_one, by with_unfolding_all rfl⟩
  have hdot : Program.NoDot [⟨.newline, 1, 8⟩, ⟨.word "if".toList, 2, 9⟩, ⟨.word "false".toList, 2, 12⟩,
      ⟨.newline, 2, 17⟩] := by
    rintro t ⟨⟩
    exact nofun
  have hsecond : Edit.Covers "a".toList (skippedTokens.drop 4) [⟨20, 28, 2⟩] :=
    @Edit.Covers.next "a".toList _ [_] _ ⟨_, 3, 20, 3, 22⟩ _ _ _ _ hdot rfl (hquoted "y".toList 3 24) rfl rfl rfl .done
  exact @Edit.Covers.next "a".toList [] [_] _ ⟨_, 1, 0, 1, 2⟩ ⟨.semicolon, 1, 7⟩ _ _ _ nofun rfl
    (hquoted "x".toList 1 4) rfl rfl rfl hsecond

theorem traceable_skippedScript : Traceable "a".toList skippedScript skippedTokens skippedProgram where
  checked := by with_unfolding_all rfl
  tokens := by with_unfolding_all rfl
  noTranspose := by simp [skippedTokens]
  continues := Edit.continuesOutside_of_tails (by decide)
  parsed := by with_unfolding_all rfl
  covers := find_skippedScript ▸ covers_skippedTokens
  all := by
    rw [find_skippedScript]
    decide +kernel
  few := by
    rw [find_skippedScript]
    decide
  unmentioned := by
    simp [skippedProgram, Statement.bodyExpressions, Statement.expressions, Statement.branchExpressions,
      Statement.otherwiseExpressions, Expr.Mentions, Expr.parts]
  noField := by decide +kernel
  noExist := by
    simp [skippedProgram, Statement.bodyExpressions, Statement.expressions, Statement.branchExpressions,
      Statement.otherwiseExpressions, Expr.parts]

theorem execute_instrument_skipped :
    let occurrences := Occurrence.find (sanitize skippedScript) "a".toList
    isIdentifier "a".toList = true ∧ Traceable "a".toList skippedScript skippedTokens skippedProgram ∧
      ∃ w w', plain.execute skippedScript = .ok w ∧ plain.executeNoting "a".toList skippedScript = .ok (w, [1]) ∧
        plain.execute (instrument (sanitize skippedScript) occurrences) = .ok w' ∧
        (∀ n, n ≠ "a".toList → n ≠ traceName → w'.lookup n = w.lookup n) ∧
        w'.lookup traceName = some (traceOf [1]) ∧
        ∀ world : World Unit, Editor.resolveLive plain.engine (instrument (sanitize skippedScript) occurrences)
          occurrences.length world = .ok 1 world := by
  intro occurrences
  have hruns : (plain.execute skippedScript).toOption.isSome = true := by decide +kernel
  have hnotes : (plain.executeNoting "a".toList skippedScript).toOption.map Prod.snd = some [1] := by decide +kernel
  cases hrun : plain.execute skippedScript with
  | error e =>
    rw [hrun] at hruns
    cases hruns
  | ok w =>
    obtain ⟨ran, w', hnoting, hexec, hsame, htrace, hlive⟩ :=
      @execute_instrument Unit _ _ _ _ _ plain (by decide) traceable_skippedScript hrun
    rw [hnoting] at hnotes
    obtain rfl : ran = [1] := Option.some.inj hnotes
    exact ⟨by decide, traceable_skippedScript, w, w', rfl, hnoting, hexec, hsame, htrace, hlive⟩

end Runner

end ConfigScript
