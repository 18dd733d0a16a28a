import ConfigScript.Proofs.Comparison
import ConfigScript.Proofs.Edits
import ConfigScript.Proofs.Scanning
import ConfigScript.Proofs.Statements
/-!
# What a batch leaves bound

The text on disk after an edit is the verified candidate with its last line ended, and it binds the
same variables (`Runner.execute_endLastLine`). So the comparison that an edit has passed speaks about
the variables before and after it (`setValue_outcome`), and since equivalence is transitive, about
those before and after a batch (`Achieved`).
-/

namespace ConfigScript

/-! ## Ending the last line -/

namespace Runner

theorem readProgram_eq_ok {script : Text} {p : Program} :
    readProgram script = .ok p ↔
      ∃ toks, Token.tokenize script = .ok toks ∧ Program.ofTokens toks = .ok p := by
  unfold readProgram
  rw [← bind_eq_ok]
  cases Token.tokenize script >>= Program.ofTokens with
  | ok q => simp
  | error e => simp

theorem readExpr_eq_ok {source : Text} {e : Expr} :
    readExpr source = .ok e ↔ ∃ toks, Token.tokenize source = .ok toks ∧ Expr.ofTokens toks = .ok e := by
  unfold readExpr
  rw [← bind_eq_ok]
  cases Token.tokenize source >>= Expr.ofTokens with
  | ok x => simp
  | error e => simp

theorem tokenize_break {script : Text} {toks : List Token} (h : Token.tokenize script = .ok toks) :
    ∃ extra, Token.tokenize (script ++ ['\n']) = .ok (toks ++ extra) ∧
      ∀ x ∈ extra, x.kind.separates = true := by
  obtain ⟨s, hr, hg, rfl⟩ := Token.scan_eq_ok.1 h
  obtain ⟨s', extra, hr', hg', htok, hsep⟩ := hr.endLine hg
  refine ⟨extra.reverse, Token.scan_eq_ok.2 ⟨s', hr', hg', ?_⟩, fun x hx => hsep x (List.mem_reverse.1 hx)⟩
  rw [htok, List.reverse_append]

/-- A script with its last line ended is the same program. -/
theorem readProgram_endLastLine {script : Text} {p : Program} (h : readProgram script = .ok p) :
    readProgram script.endLastLine = .ok p := by
  unfold Text.endLastLine
  split
  · exact h
  · obtain ⟨toks, ht, hp⟩ := readProgram_eq_ok.1 h
    obtain ⟨extra, ht', hsep⟩ := tokenize_break ht
    exact readProgram_eq_ok.2 ⟨toks ++ extra, ht', Program.ofTokens_append hp hsep⟩

theorem execute_eq_ok {r : Runner} {script : Text} {vars : Workspace} :
    r.execute script = .ok vars ↔ ∃ p, readProgram script = .ok p ∧
      Statement.runAll ⟨r.settings, r.process, []⟩ r.seeds p = .ok vars := by
  unfold execute
  rw [bind_eq_ok]
  refine exists_congr fun p => and_congr_right fun _ => ?_
  cases Statement.runAll ⟨r.settings, r.process, []⟩ r.seeds p with
  | ok w => simp [pure, Except.pure]
  | error e => simp

/-- A script with its last line ended binds the same variables. -/
theorem execute_endLastLine {r : Runner} {script : Text} {vars : Workspace}
    (h : r.execute script = .ok vars) : r.execute script.endLastLine = .ok vars := by
  obtain ⟨p, hp, hrun⟩ := execute_eq_ok.1 h
  exact execute_eq_ok.2 ⟨p, readProgram_endLastLine hp, hrun⟩

end Runner

namespace Editor

variable {σ : Type} {r : Runner} {path name value : Text} {w w' : World σ} {before after : Workspace}

/-! ## One edit -/

theorem bindings_run_ok :
    bindings r.engine path w = .ok before w' ↔
      ∃ file, ScriptFile.read w.files path = .ok file ∧ r.execute file.content = .ok before ∧ w' = w := by
  unfold bindings
  rw [bind_run_ok]
  constructor
  · rintro ⟨file, w₁, h₁, h₂⟩
    rw [readFiles_run] at h₁
    obtain ⟨hread, rfl⟩ := lift_run_ok.1 h₁
    rw [execute_eq_ask] at h₂
    obtain ⟨hrun, rfl⟩ := Prod.mk.inj (ask_run_ok.1 h₂)
    exact ⟨file, hread, hrun, rfl⟩
  · rintro ⟨file, hread, hrun, rfl⟩
    refine ⟨file, w', readFiles_run _ w' ▸ lift_run_ok.2 ⟨hread, rfl⟩, ?_⟩
    rw [execute_eq_ask]
    exact ask_run_ok.2 (Prod.ext hrun rfl)

/-- The variables before and after an edit are those that it has compared, with the value that was
asked for. -/
theorem setValue_outcome {backUp : Bool} {b : Option Backup}
    (h : setValue r.engine path name value backUp w = .ok b w') :
    isIdentifier name = true ∧ ∃ before after expected,
      bindings r.engine path w = .ok before w ∧ bindings r.engine path w' = .ok after w' ∧
      r.evaluate (Edit.normalize value) = .ok expected ∧
      Edit.compare before after name expected = .ok () := by
  obtain ⟨file, v, w₁, l, saved, hp, hl, hs, rfl⟩ := (setValue_run_ok r.engine_keepsFiles).1 h
  obtain ⟨hname, hread, -, -, hv⟩ := prepare_run_ok.1 hp
  obtain ⟨run, w₂, w₃, before, w₄, o, after, -, -, hvalue, hbefore, -, -, hafter, hcmp⟩ :=
    verify_run_ok.1 hv
  have hbefore : r.execute file.content = .ok before := congrArg Prod.fst hbefore
  have hafter : r.execute v.candidate = .ok after := congrArg Prod.fst hafter
  have hwritten : ScriptFile.At (saved.put l (.file (ScriptFile.encode v.candidate.endLastLine))) path l
      v.candidate.endLastLine := FileSystem.find_put_self (hs.at hl) _
  refine ⟨hname, before, after, v.value, bindings_run_ok.2 ⟨file, hread, hbefore, rfl⟩, ?_,
    congrArg Prod.fst hvalue, hcmp⟩
  exact bindings_run_ok.2 ⟨_, ScriptFile.read_of_at hwritten, Runner.execute_endLastLine hafter, rfl⟩

/-! ## A batch of edits -/

/-- The text that a batch gives a name at last. -/
def lastText (edits : List (Text × Text)) (name : Text) : Option Text := edits.reverse.lookup name

theorem lastText_cons (edits : List (Text × Text)) (n : Text) :
    lastText ((name, value) :: edits) n = (lastText edits n).or (if n = name then some value else none) := by
  rw [lastText, List.reverse_cons, List.lookup_append]
  refine congrArg (Option.or _) ?_
  by_cases h : n = name
  · rw [if_pos h]
    simp [h]
  · have hn : (n == name) = false := by simpa using h
    rw [if_neg h, List.lookup_cons, hn]
    rfl

/-- Every edited variable has got the value of the last text for it, and every other variable has
kept its value. -/
structure Achieved (r : Runner) (edits : List (Text × Text)) (before after : Workspace) : Prop where
  edited : ∀ n t, lastText edits n = some t → isIdentifier n = true ∧ ∃ v expected,
    after.lookup n = some v ∧ r.evaluate (Edit.normalize t) = .ok expected ∧ v.equivalent expected = true
  kept : ∀ n old, before.lookup n = some old → lastText edits n = none →
    ∃ new, after.lookup n = some new ∧ old.equivalent new = true

theorem achieved_nil (r : Runner) (vars : Workspace) : Achieved r [] vars vars where
  edited := nofun
  kept _ old hold _ := ⟨old, hold, Value.equivalent_refl old⟩

theorem achieved_one {expected : Value} (hname : isIdentifier name = true)
    (hv : r.evaluate (Edit.normalize value) = .ok expected)
    (h : Edit.compare before after name expected = .ok ()) : Achieved r [(name, value)] before after := by
  obtain ⟨hedited, hkept⟩ := Edit.compare_eq_ok_iff_mem.1 h
  have hlast : ∀ n, lastText [(name, value)] n = if n = name then some value else none :=
    lastText_cons []
  constructor
  · intro n t ht
    rw [hlast] at ht
    split at ht
    · next hn =>
      cases ht
      obtain ⟨actual, ha, he⟩ := hedited
      exact ⟨hn ▸ hname, actual, expected, hn ▸ ha, hv, he⟩
    · cases ht
  · intro n old hold hn
    rw [hlast] at hn
    have hne : n ≠ name := by
      rintro rfl
      simp at hn
    exact hkept n old (Table.mem_of_lookup hold) hne

theorem Achieved.cons {edits : List (Text × Text)} {mid : Workspace}
    (h₁ : Achieved r [(name, value)] before mid) (h₂ : Achieved r edits mid after) :
    Achieved r ((name, value) :: edits) before after := by
  have hone : ∀ n, lastText [(name, value)] n = if n = name then some value else none :=
    lastText_cons []
  constructor
  · intro n t ht
    rw [lastText_cons] at ht
    cases hlast : lastText edits n with
    | some u =>
      rw [hlast] at ht
      cases ht
      exact h₂.edited n _ hlast
    | none =>
      -- no later edit names the variable, so it keeps what the first has given it
      rw [hlast, Option.none_or, ← hone] at ht
      obtain ⟨hname, v, expected, hv, hx, he⟩ := h₁.edited n t ht
      obtain ⟨new, hnew, hk⟩ := h₂.kept n v hv hlast
      exact ⟨hname, new, expected, hnew, hx, Value.equivalent_trans (Value.equivalent_symm hk) he⟩
  · intro n old hold hn
    rw [lastText_cons, Option.or_eq_none_iff, ← hone] at hn
    obtain ⟨mid, hmid, hk⟩ := h₁.kept n old hold hn.2
    obtain ⟨new, hnew, hk'⟩ := h₂.kept n mid hmid hn.1
    exact ⟨new, hnew, Value.equivalent_trans hk hk'⟩

theorem achieved_setValue {backUp : Bool} {b : Option Backup}
    (h : setValue r.engine path name value backUp w = .ok b w') :
    ∃ before after, bindings r.engine path w = .ok before w ∧ bindings r.engine path w' = .ok after w' ∧
      Achieved r [(name, value)] before after := by
  obtain ⟨hname, before, after, expected, hb, ha, hv, hc⟩ := setValue_outcome h
  exact ⟨before, after, hb, ha, achieved_one hname hv hc⟩

/-- Each later edit starts from the variables that the one before it has left. -/
theorem achieved_setRest {backup : Backup} {edits : List (Text × Text)}
    (h : setRest r.engine path backup edits w = .ok () w') (hb : bindings r.engine path w = .ok before w) :
    ∃ after, bindings r.engine path w' = .ok after w' ∧ Achieved r edits before after := by
  induction edits generalizing w before with
  | nil =>
    cases h
    exact ⟨before, hb, achieved_nil r before⟩
  | cons edit edits ih =>
    obtain ⟨name, value⟩ := edit
    obtain ⟨b, w₁, hs, hr⟩ := setRest_run_ok h
    obtain ⟨before', mid, hb', hmid, h₁⟩ := achieved_setValue hs
    rw [hb] at hb'
    cases hb'
    obtain ⟨after, ha, h₂⟩ := ih hr hmid
    exact ⟨after, ha, h₁.cons h₂⟩

theorem achieved_setAll {edits : List (Text × Text)} {b : Option Backup} (hne : edits ≠ [])
    (h : setAll r.engine path edits w = .ok b w') :
    ∃ before after, bindings r.engine path w = .ok before w ∧ bindings r.engine path w' = .ok after w' ∧
      Achieved r edits before after := by
  cases edits with
  | nil => exact (hne rfl).elim
  | cons edit edits =>
    obtain ⟨name, value⟩ := edit
    obtain ⟨backup, w₁, -, hs, hr⟩ := setAll_run_ok r.engine_keepsFiles h
    obtain ⟨before, mid, hb, hmid, h₁⟩ := achieved_setValue hs
    obtain ⟨after, ha, h₂⟩ := achieved_setRest hr hmid
    exact ⟨before, after, hb, ha, h₁.cons h₂⟩

theorem value_run_ok {v : Value} (hname : isIdentifier name = true)
    (hb : bindings r.engine path w = .ok before w) (hv : before.lookup name = some v) :
    Editor.value r.engine path name w = .ok v w := by
  unfold Editor.value
  refine bind_run_ok.2 ⟨(), w, checkName_run_ok.2 ⟨hname, rfl⟩, ?_⟩
  refine bind_run_ok.2 ⟨before, w, hb, ?_⟩
  simp only [hv]
  rfl

/-- After a batch that succeeds, every name in it has the value of the last text given for it, and
every variable that the script has bound before and the batch does not name is still bound to an
equivalent value. -/
theorem setAll_bindings {edits : List (Text × Text)} {b : Option Backup}
    (h : setAll r.engine path edits w = .ok b w') :
    (∀ n t, lastText edits n = some t → ∃ v expected, Editor.value r.engine path n w' = .ok v w' ∧
      r.evaluate (Edit.normalize t) = .ok expected ∧ v.equivalent expected = true) ∧
    ∀ before w₁, bindings r.engine path w = .ok before w₁ → ∃ after,
      bindings r.engine path w' = .ok after w' ∧ ∀ n old, before.lookup n = some old →
        lastText edits n = none → ∃ new, after.lookup n = some new ∧ old.equivalent new = true := by
  by_cases hne : edits = []
  · subst hne
    cases h
    refine ⟨nofun, fun before w₁ hb => ?_⟩
    obtain ⟨_, -, -, rfl⟩ := bindings_run_ok.1 hb
    exact ⟨before, hb, (achieved_nil r before).kept⟩
  · obtain ⟨before, after, hb, ha, hx⟩ := achieved_setAll hne h
    constructor
    · intro n t ht
      obtain ⟨hname, v, expected, hv, he, hq⟩ := hx.edited n t ht
      exact ⟨v, expected, value_run_ok hname ha hv, he, hq⟩
    · intro before' w₁ hb'
      rw [hb] at hb'
      cases hb'
      exact ⟨after, ha, hx.kept⟩

set_option maxRecDepth 10000 in
/-- The script here lacks a final line break, and the second text for `a` is the one that counts. The batch
does not name `b`, which keeps its value. -/
theorem setAll_bindings_twice :
    let w : World Unit := ⟨FileSystem.single "s.m" "a = 1;\nb = 5;\na = 2;", ()⟩
    let edits := [("a".toList, "3".toList), ("a".toList, "4".toList)]
    ∃ b w', setAll Runner.plain.engine "/s.m".toList edits w = .ok b w' ∧
      (∃ v expected, Editor.value Runner.plain.engine "/s.m".toList "a".toList w' = .ok v w' ∧
        Runner.plain.evaluate (Edit.normalize "4".toList) = .ok expected ∧ v.equivalent expected = true) ∧
      ∃ before after old new, bindings Runner.plain.engine "/s.m".toList w = .ok before w ∧
        bindings Runner.plain.engine "/s.m".toList w' = .ok after w' ∧ before.lookup "b".toList = some old ∧
        after.lookup "b".toList = some new ∧ old.equivalent new = true := by
  intro w edits
  have hs : succeeded (setAll Runner.plain.engine "/s.m".toList edits w) = true := by decide +kernel
  have hold : ((outcome? (bindings Runner.plain.engine "/s.m".toList w)).bind (·.lookup "b".toList)).isSome = true := by
    decide +kernel
  obtain ⟨b, w', h⟩ := exists_of_succeeded hs
  obtain ⟨old, hold⟩ := Option.isSome_iff_exists.1 hold
  obtain ⟨before, hbefore, hold⟩ := Option.bind_eq_some_iff.1 hold
  obtain ⟨w₁, hbefore⟩ := outcome?_eq_some.1 hbefore
  obtain ⟨hedited, hkept⟩ := setAll_bindings h
  obtain ⟨after, hafter, hsame⟩ := hkept before w₁ hbefore
  obtain ⟨new, hnew, hequivalent⟩ := hsame "b".toList old hold (by decide)
  obtain ⟨_, -, -, rfl⟩ := bindings_run_ok.1 hbefore
  exact ⟨b, w', h, hedited "a".toList "4".toList (by decide), before, after, old, new, hbefore, hafter, hold, hnew,
    hequivalent⟩

end Editor

end ConfigScript
