import ConfigScript.Proofs.Shown
/-!
# Values by themselves and assigned

An expression is evaluated by itself, or its text stands in a script between the sign of an assignment and a semicolon.
The scan reads the same kinds of tokens in both places, except that the semicolon is one more token unless a comment or
a continuation at the end of the text takes it in (`Token.Run.ending`). So the script binds the value that the
expression has (`Runner.execute_assignment`).
-/

namespace ConfigScript

open Edit (assignmentText run_word run_sign)
open Program (ReadsExpr Spells Spot skipSeparators)

namespace Token

variable {s s₁ : Scan} {t comment : Text} {w source : Text} {ts : List Token}

/-! ## A semicolon at the end -/

/-- A comment, or the tail of a continuation, goes on to the end of the text. -/
theorem restOfLine_ending (hn : '\n' ∉ t) : restOfLine (t ++ [';']) = (t ++ [';'], []) := by
  have hbreak : '\n' ∉ t ++ [';'] := by simp [hn]
  have hline := @restOfLine_of_break [] _ hbreak (.inl rfl)
  rwa [List.append_nil] at hline

/-- A semicolon behind a text with tokens is one more token, or none. -/
theorem Run.ending (h : Run s t s₁ []) (hg : s₁.groups = []) : ∃ s₂ more, Run s (t ++ [';']) s₂ [] ∧ s₂.groups = [] ∧
    s₂.tokens = more ++ s₁.tokens ∧ ∀ x ∈ more, x.kind.separates = true := by
  have hsemi : ∀ x ∈ [(⟨.semicolon, s₁.line, s₁.offset⟩ : Token)], x.kind.separates = true := by
    simp [TokenKind.separates]
  have hnone : ∀ x ∈ ([] : List Token), x.kind.separates = true := fun x hx => absurd hx List.not_mem_nil
  rcases h.last_step with ⟨rfl, rfl⟩ | ⟨code, s₂, last, rfl, -, hr, hlast⟩
  · exact ⟨_, [_], .single (step_semicolon hg), hg, rfl, hsemi⟩
  · rcases hlast.open_end hg with hstep | ⟨comment, rfl, hn, hg₀⟩ | ⟨tail, rfl, hn⟩
    · exact ⟨_, [_], hr.trans (.cons hstep (.single (step_semicolon hg))), hg, rfl, hsemi⟩
    · obtain ⟨rfl, -⟩ := hlast.unique .comment
      have hcomment := @Step.comment s₂ (comment ++ [';'])
      rw [restOfLine_ending hn] at hcomment
      exact ⟨_, [], hr.trans (.single hcomment), hg, rfl, hnone⟩
    · obtain ⟨rfl, -⟩ := hlast.unique (.continued rfl)
      have hdots : '\n' ∉ '.' :: '.' :: tail := by simp [hn]
      have hcontinued := @Step.continued s₂ '.' (('.' :: '.' :: tail) ++ [';']) rfl
      rw [continuation_rest, restOfLine_ending hdots] at hcontinued
      exact ⟨_, [], hr.trans (.single hcontinued), hg, rfl, hnone⟩

/-- In a script that assigns a text with tokens, behind the sign are the kinds of these tokens, and separators. -/
theorem tokenize_assignment (hw : IsWord w) (h : tokenize source = .ok ts) :
    ∃ (q : Spot) (value more : List Token), tokenize (assignmentText w source) = .ok (q.before (value ++ more)) ∧
      q.name = w ∧ kinds value = kinds ts ∧ ∀ x ∈ more, x.kind.separates = true := by
  obtain ⟨s₁, hrun, hg₁, rfl⟩ := scan_eq_ok.1 h
  obtain ⟨s₂, more, hrun₂, hg₂, htok₂, hmore⟩ := hrun.ending hg₁
  obtain ⟨s₃, hname, hg₃, htok₃⟩ := run_word (s := .start) (t := ' ' :: '=' :: ' ' :: (source ++ [';'])) hw rfl rfl
  obtain ⟨s₄, line, offset, hsign, hview₄, htok₄⟩ := run_sign hg₃ (source ++ [';'])
  have hg₄ : s₄.groups = [] := congrArg View.groups hview₄
  -- behind the sign the scan goes on as at the start of a text
  have hstart : Similar [] s₄.tokens .start s₄ := by
    refine ⟨hg₄.symm, ?_, fun hspaced => absurd hspaced Bool.false_ne_true, [], [], rfl, rfl, rfl⟩
    rw [Scan.afterOperand, Scan.afterOperand, htok₄]
    rfl
  obtain ⟨s₅, hrun₅, hs⟩ := hrun₂.mirror hstart
  obtain ⟨new, new', hnew, hnew', hk⟩ := hs.gained
  rw [List.append_nil] at hnew
  rw [← hnew, htok₂, kinds_append] at hk
  obtain ⟨more', value, rfl, hkmore, hkvalue⟩ := List.map_eq_append_iff.1 hk.symm
  refine ⟨⟨w, 1, 0, line, offset⟩, value.reverse, more'.reverse, scan_eq_ok.2 ⟨s₅, ?_, hs.groups ▸ hg₂, ?_⟩, rfl, ?_, ?_⟩
  · have hall := hname.trans (hsign.trans hrun₅)
    simpa [assignmentText] using hall
  · rw [hnew', htok₄, htok₃]
    simp [Spot.before, Spot.sign, Scan.start]
  · rw [kinds_reverse, kinds_reverse]
    exact congrArg List.reverse hkvalue
  · intro x hx
    have hmem : x.kind ∈ kinds more := hkmore ▸ List.mem_map_of_mem (List.mem_reverse.1 hx)
    obtain ⟨y, hy, hkind⟩ := List.mem_map.1 hmem
    exact hkind ▸ hmore y hy

end Token

namespace Program

variable {q : Spot} {e : Expr} {value more ts : List Token}

/-- A value with separators around it and an assignment in front is a program of this assignment. -/
theorem ofTokens_assignment (hkey : isKeyword q.name = false) (h : Expr.ofTokens ts = .ok e)
    (hfirst : ∀ t ∈ ts.head?, t.kind.separates = false) (hk : kinds value = kinds ts)
    (hmore : ∀ x ∈ more, x.kind.separates = true) :
    ofTokens (q.before (value ++ more)) = .ok [.assign q.line q.name [] e] := by
  have hskip : skipSeparators value = value := by
    cases value with
    | nil => rfl
    | cons x value =>
      obtain ⟨t, ts, rfl, hkind, -⟩ := List.map_eq_cons_iff.1 hk.symm
      have hkind : t.kind = x.kind := hkind
      have hno : x.kind.separates = false := hkind ▸ hfirst t rfl
      exact List.dropWhile_cons_of_neg (by simp [hno])
  obtain ⟨seps, -, hread, hseps⟩ := Edit.readsExpr_of_ofTokens h hk hskip fun x hx => hmore x (List.mem_of_mem_head? hx)
  have hrest : ∀ x ∈ seps ++ more, x.kind.separates = true := fun x hx =>
    (List.mem_append.1 hx).elim (hseps x) (hmore x)
  have hends : endsStatement [] (seps ++ more) = true := by
    cases hcase : seps ++ more with
    | nil => rfl
    | cons x rest => simp [endsStatement, hrest x (hcase ▸ List.mem_cons_self)]
  have hassign : Spells .statement (q.before (value ++ more)) (.one (.assign q.line q.name [] e)) (seps ++ more) :=
    .assign hkey .nil hread
  exact ofTokens_eq_ok.2 (.more rfl rfl hassign hends (.done (List.dropWhile_eq_nil_iff.2 hrest)))

end Program

namespace Runner

open Token (tokenize)

variable {settings : Settings} {process : Table Text} {r : Runner} {name source : Text} {ts : List Token} {v : Value}

/-- What a text evaluates to by itself is what a script binds that assigns it. -/
theorem execute_assignment (hr : ofSettings settings process = .ok r) (hp : settings.presets = [])
    (hn : isIdentifier name = true) (ht : tokenize source = .ok ts) (hfirst : ∀ t ∈ ts.head?, t.kind.separates = false)
    (h : r.evaluate source = .ok v) : r.execute (assignmentText name source) = .ok [(name, v)] := by
  obtain ⟨hword, hkey⟩ := assignable_of_identifier hn
  obtain ⟨e, he, hv⟩ := evaluateUnder_eq_ok.1 h
  obtain ⟨toks, htoks, he⟩ := readExpr_eq_ok.1 he
  cases ht.symm.trans htoks
  obtain ⟨q, value, more, hscript, rfl, hk, hmore⟩ := Token.tokenize_assignment hword ht
  have hprogram := Program.ofTokens_assignment (q := q) hkey he hfirst hk hmore
  have hseeds : r = ⟨settings, process, []⟩ := by
    rw [ofSettings, hp] at hr
    cases hr
    rfl
  subst hseeds
  have hassign : Statement.run ⟨settings, process, []⟩ [] (.assign q.line q.name [] e) = .ok [(q.name, v)] := by
    have hv : e.eval (Statement.within ⟨settings, process, []⟩ []) = .ok v := hv
    rw [Statement.run, hv]
    rfl
  refine execute_eq_ok.2 ⟨_, readProgram_eq_ok.2 ⟨_, hscript, hprogram⟩, ?_⟩
  rw [Statement.runAll, hassign]
  rfl

/-- The semicolon is taken in by a continuation. -/
theorem execute_assignment_continued :
    Runner.plain.evaluate "'note' ... to the end".toList = .ok (.text "note".toList) ∧
      Runner.plain.execute "a = 'note' ... to the end;".toList = .ok [("a".toList, .text "note".toList)] := by
  have ht : tokenize "'note' ... to the end".toList = .ok [⟨.quoted "note".toList, 1, 0⟩] := by with_unfolding_all rfl
  have he : Runner.plain.evaluate "'note' ... to the end".toList = .ok (.text "note".toList) :=
    evaluateUnder_eq_ok.2 ⟨.quoted "note".toList, readExpr_eq_ok.2 ⟨_, ht, by with_unfolding_all rfl⟩, rfl⟩
  exact ⟨he, @execute_assignment {} [] _ "a".toList _ _ _ rfl rfl (by decide) ht (by decide) he⟩

end Runner

end ConfigScript
