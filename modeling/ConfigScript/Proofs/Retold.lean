import ConfigScript.Proofs.Mentions
import ConfigScript.Proofs.Occurrences
import ConfigScript.Proofs.Splices
import ConfigScript.Proofs.Writing
/-!
# The tokens of a traced script

A written assignment is read as one wherever no bracket is open (`run_assignment`), so an assignment in
the text can give way to another one and the tokens behind it stay of the same kinds
(`tokenize_replaced`). One after the other, from the last to the first, all occurrences of a variable
give way like that (`exists_retold`), and the line that starts the trace goes in front
(`tokenize_instrument`).
-/

namespace ConfigScript

namespace Program

variable {ts us : List Token} {e : Expr}

theorem NoDot.of_kinds (h : NoDot ts) (hk : kinds us = kinds ts) : NoDot us := by
  intro x hx
  have hlast : (kinds ts).getLast? = some x.kind := by
    rw [← hk, kinds, List.getLast?_map, Option.mem_def.1 hx]
    rfl
  rw [kinds, List.getLast?_map] at hlast
  obtain ⟨y, hy, hkind⟩ := Option.map_eq_some_iff.1 hlast
  exact hkind ▸ h y hy

theorem NoDot.append (h : NoDot ts) (h' : NoDot us) : NoDot (ts ++ us) := by
  intro x hx
  rw [List.getLast?_append] at hx
  cases hu : us.getLast? with
  | none =>
    rw [hu] at hx
    exact h x hx
  | some y =>
    rw [hu] at hx
    exact h' x (hu.trans hx)

theorem ReadsExpr.same_all (h : ReadsExpr ts e []) (hk : kinds us = kinds ts) : ReadsExpr us e [] := by
  obtain ⟨rest, hx, hr⟩ := h.same hk
  obtain rfl := List.map_eq_nil_iff.1 hr
  exact hx

/-- An assignment on a line of its own, in front of the rest of a script. -/
theorem Spells.line {q : Spot} {value : List Token} {semi brk : Token} {p : List Statement}
    (hkey : isKeyword q.name = false) (hx : ReadsExpr value e []) (hsemi : semi.kind = .semicolon)
    (hbrk : brk.kind = .newline) (h : Spells (.block []) ts (.body p) []) :
    Spells (.block []) (q.before (value ++ semi :: brk :: ts)) (.body (.assign q.line q.name [] e :: p)) [] := by
  have hsep : ∀ u ∈ (semi :: brk :: ts).head?, u.kind.separates = true := by
    rintro u ⟨⟩
    rw [hsemi]
    rfl
  have hskip : skipSeparators (semi :: brk :: ts) = skipSeparators ts := by
    simp [skipSeparators, hsemi, hbrk, TokenKind.separates]
  have hassign : Spells .statement (q.before (value ++ semi :: brk :: ts))
      (.one (.assign q.line q.name [] e)) (semi :: brk :: ts) := .assign hkey .nil (hx.append hsep)
  refine .more rfl rfl hassign ?_ (Spells.skip.1 (hskip ▸ Spells.skip.2 h))
  simp [endsStatement, hsemi, TokenKind.separates]

end Program

namespace Edit

open Token Program

variable {s : Scan} {t w new head span tail : Text} {e : Expr} {front value rest : List Token} {p : Spot} {semi : Token}

/-! ## An assignment in writing -/

/-- The assignment as it is written. -/
def assignmentText (w value : Text) : Text := w ++ " = ".toList ++ value ++ [';']

theorem run_word (hw : IsWord w) (hg : s.groups = []) (ht : t.head?.any isNamePart = false) :
    ∃ s', Run s (w ++ t) s' t ∧ s'.groups = [] ∧ s'.tokens = ⟨.word w, s.line, s.offset⟩ :: s.tokens := by
  cases w with
  | nil => cases hw.1
  | cons c w =>
    have htake : (s.separated c (w ++ t).head?).take ⟨.word (c :: w), c :: w, t⟩ =
        .ok ⟨s.line + Text.lineBreaks (c :: w), s.offset + Text.byteLength (c :: w), [], false,
          ⟨.word (c :: w), s.line, s.offset⟩ :: s.tokens⟩ := by
      rw [Scan.separated_of_groups hg]
      refine Scan.take_eq_ok.2 ⟨[], ?_, rfl⟩
      rw [hg]
      rfl
    exact ⟨_, .single (.token (hw.atLexeme _) (hw.lexeme ht _) htake), rfl, rfl⟩

theorem run_sign (hg : s.groups = []) (rest : Text) :
    ∃ s' line offset, Run s (' ' :: '=' :: ' ' :: rest) s' rest ∧ s'.view = ⟨[], true, .assign :: kinds s.tokens⟩ ∧
      s'.tokens = ⟨.assign, line, offset⟩ :: s.tokens :=
  ⟨_, _, _, .cons (.blank rfl) (.cons (step_assign hg nofun) (.single (.blank rfl))),
    congrArg (View.mk · true (.assign :: kinds s.tokens)) hg, rfl⟩

/-- Outside brackets a written assignment is read as one. -/
theorem run_assignment (hw : IsWord w) (hv : Writes new e) (hg : s.groups = []) (t : Text) :
    ∃ (s' : Scan) (q : Spot) (value : List Token) (semi : Token), Run s (assignmentText w new ++ t) s' t ∧
      s'.groups = [] ∧ s'.tokens.reverse = s.tokens.reverse ++ q.before (value ++ [semi]) ∧ q.name = w ∧
      semi.kind = .semicolon ∧ ReadsExpr value e [] := by
  obtain ⟨ks, hemits, hparses⟩ := hv
  obtain ⟨s₁, hname, hg₁, htok₁⟩ := run_word (t := ' ' :: '=' :: ' ' :: (new ++ ';' :: t)) hw hg rfl
  obtain ⟨s₂, line, offset, hsign, hview₂, htok₂⟩ := run_sign hg₁ (new ++ ';' :: t)
  obtain ⟨sp, hgo⟩ := hemits [] true (.assign :: kinds s₁.tokens) (';' :: t) rfl (delimits_cons.2 (by decide))
  obtain ⟨s₃, hvalue, hview₃⟩ := hgo s₂ hview₂
  have hg₃ : s₃.groups = [] := congrArg View.groups hview₃
  obtain ⟨u, value, hadv⟩ := hvalue.advance
  have hkinds : kinds value.reverse = ks := by
    have hall : kinds s₃.tokens = ks.reverse ++ .assign :: kinds s₁.tokens := congrArg View.collected hview₃
    have hold : kinds s₂.tokens = .assign :: kinds s₁.tokens := congrArg View.collected hview₂
    rw [hadv.tokens, kinds_append, hold, List.append_cancel_right_eq] at hall
    rw [kinds_reverse, hall, List.reverse_reverse]
  refine ⟨s₃.after .semicolon ';', ⟨w, s.line, s.offset, line, offset⟩, value.reverse,
    ⟨.semicolon, s₃.line, s₃.offset⟩, ?_, hg₃, ?_, rfl, rfl, ?_⟩
  · have h := hname.trans (hsign.trans (hvalue.trans (.single (step_semicolon hg₃))))
    simpa [assignmentText] using h
  · simp [Scan.after, hadv.tokens, htok₂, htok₁, Spot.before, Spot.sign]
  · refine readsExpr_of_reads ?_ List.nil_suffix
    have hreads : Reads (.joined .orOr) (ks ++ []) (.expr e) [] := hparses.stands [] Program.ahead_nil
    rwa [List.append_nil, ← hkinds] at hreads

/-! ## An assignment replaced in the text -/

/-- An assignment with its semicolon is replaced in the text by a written one: in front of it the tokens stay,
and behind it they are of the same kinds. -/
theorem tokenize_replaced (head span tail : Text)
    (h : tokenize (head ++ (span ++ tail)) = .ok (front ++ p.before (value ++ semi :: rest)))
    (hfront : nestAll [] (kinds front) = some []) (hvalue : nestAll [] (kinds value) = some [])
    (hsemi : semi.kind = .semicolon) (hstart : p.offset = head.byteLength)
    (hstop : semi.offset + 1 = (head ++ span).byteLength) (hopens : Opens head.getLast?) (hw : IsWord w)
    (hnew : Writes new e) :
    ∃ (q : Spot) (value' : List Token) (semi' : Token) (rest' : List Token),
      tokenize (head ++ (assignmentText w new ++ tail)) = .ok (front ++ q.before (value' ++ semi' :: rest')) ∧
      q.name = w ∧ semi'.kind = .semicolon ∧ ReadsExpr value' e [] ∧ kinds rest' = kinds rest := by
  obtain ⟨last, hr, hlast, htok⟩ := scan_eq_ok.1 h
  -- up to the name
  obtain ⟨s₁, c, v, s₂, t₂, hr₁, hs₁, hr₂, hn₁, hg₁, htok₁, htok₂, hoff₁, -⟩ :=
    hr.reachOutside wellNested_start htok.symm (by simp) hfront (Nat.zero_le _)
  have hc : c.isAlpha = true := by
    obtain ⟨l, _, hl, hx, -⟩ := hs₁.outside hg₁ htok₂
    exact (lexeme_word hl (congrArg Token.kind hx).symm).1
  obtain ⟨head', _, ha₁⟩ := hr₁.advance
  obtain ⟨rfl, hv⟩ : head = head' ∧ span ++ tail = c :: v :=
    Text.append_inj ha₁.text (hstart.symm.trans (hoff₁.trans (ha₁.offset.trans (Nat.zero_add _))))
  -- behind the semicolon
  obtain ⟨s₃, tail', hr₃, hr₄, -, -, hg₃, htok₃, hsemi'⟩ :=
    @exists_sign _ _ _ _ _ _ ';' hr₂ ((Run.single hs₁).wellNested hn₁)
      (show last.tokens.reverse = front ++ p.before value ++ semi :: rest by rw [← htok, List.append_assoc]; rfl)
      (.inr hsemi) (by rw [hsemi]; rintro _ ⟨⟩; rfl)
      (by rw [kinds_append, nestAll_append, hfront]; exact hvalue)
      (by simp [htok₂, htok₁, Spot.before])
  obtain ⟨body, _, ha₃⟩ := (hr₁.trans (.cons hs₁ hr₃)).advance
  obtain ⟨-, rfl⟩ : body ++ [';'] = head ++ span ∧ tail' = tail := by
    refine Text.append_inj ?_ ?_
    · rw [List.append_assoc, List.append_assoc]
      exact ha₃.text.symm
    · have hoff : s₃.offset = body.byteLength := ha₃.offset.trans (Nat.zero_add _)
      rw [← hstop, congrArg Token.offset hsemi', Text.byteLength_append, hoff]
      rfl
  -- the new assignment stands where the name stood, and then the scan goes on as before
  have hletter : (assignmentText w new ++ tail').head?.any Char.isAlpha = true := by
    cases w with
    | nil => cases hw.1
    | cons d w => exact hw.1
  have hcut : ∀ r : Text, r.head?.any Char.isAlpha = true → Cut head r := by
    intro r hr
    cases r with
    | nil => cases hr
    | cons d r => exact .letter hr hopens
  rw [hv] at hr₁
  have hname := hr₁.cut (hcut (c :: v) hc) (hcut _ hletter) hc hletter
  obtain ⟨s₄, q, value', semi', hr₅, hg₄, htok₄, hq, hsemi₄, hread⟩ := run_assignment hw hnew hg₁ tail'
  have ho₄ : s₄.afterOperand = false := by
    have hlast : s₄.tokens = semi' :: (front ++ q.before value').reverse := by
      rw [← List.reverse_reverse s₄.tokens, htok₄, htok₁]
      simp [Spot.before]
    simp [Scan.afterOperand, hlast, hsemi₄, TokenKind.endsOperand]
  have hsimilar : Similar (s₃.after semi.kind ';').tokens s₄.tokens (s₃.after semi.kind ';') s₄ := by
    refine ⟨hg₃.trans hg₄.symm, ?_, ?_, [], [], rfl, rfl, rfl⟩
    · rw [ho₄, hsemi]
      rfl
    · intro hname
      rw [hsemi] at hname
      cases hname
  obtain ⟨last', hr₆, hgroups, -, -, new₁, new₂, hold, hnew₂, hkinds⟩ := hr₄.mirror hsimilar
  refine ⟨q, value', semi', new₂.reverse, scan_eq_ok.2 ⟨last', hname.trans (hr₅.trans hr₆), hgroups ▸ hlast, ?_⟩,
    hq, hsemi₄, hread, ?_⟩
  · rw [hnew₂, List.reverse_append, htok₄, htok₁, List.reverse_reverse]
    simp [Spot.before]
  · have hrest : rest = new₁.reverse := by
      rw [hold, List.reverse_append, Scan.after, List.reverse_cons, htok₃, ← hsemi'] at htok
      simpa [Spot.before] using htok
    rw [hrest, kinds_reverse, kinds_reverse, hkinds]

/-! ## All occurrences replaced -/

/-- The occurrences are plain assignments to `name` in these tokens, one behind the other: each runs from the
name, which is no field, through a semicolon behind the one expression that is assigned. -/
inductive Covers (name : Text) : List Token → List Occurrence → Prop
  | done {ts : List Token} : Covers name ts []
  | next {front value rest : List Token} {p : Spot} {semi : Token} {e : Expr} {o : Occurrence} {os : List Occurrence} :
    NoDot front → p.name = name → ReadsExpr value e [] → semi.kind = .semicolon → o.start = p.offset →
    o.stop = semi.offset + 1 → Covers name rest os → Covers name (front ++ p.before (value ++ semi :: rest)) (o :: os)

/-- The trace with an id behind it. -/
def traceExpr (id : Nat) : Expr := .matrix [[.name traceName, .number (Number.nearest id 0)]]

/-- The kinds of the tokens are the same but for assignments to `name`, which append these ids to the trace. -/
inductive Retold (name : Text) : List Nat → List Token → List Token → Prop
  | same {ts us : List Token} : kinds us = kinds ts → Retold name [] ts us
  | next {front front' value value' rest rest' : List Token} {p q : Spot} {semi semi' : Token} {e : Expr} {id : Nat}
      {ids : List Nat} :
    kinds front' = kinds front → NoDot front → p.name = name → q.name = traceName → ReadsExpr value e [] →
    ReadsExpr value' (traceExpr id) [] → semi.kind = .semicolon → semi'.kind = .semicolon →
    Retold name ids rest rest' →
    Retold name (id :: ids) (front ++ p.before (value ++ semi :: rest)) (front' ++ q.before (value' ++ semi' :: rest'))

variable {P : Text → Prop} {name : Text} {os : List Occurrence} {ts us : List Token} {ids : List Nat}

theorem places_append (ts us : List Token) : places (ts ++ us) = places ts ++ places us := List.map_append

/-- Tokens in the same places are covered by the same occurrences. -/
theorem Covers.same (h : Covers name ts os) (hp : places us = places ts) : Covers name us os := by
  induction h generalizing us with
  | done => exact .done
  | @next front value rest p semi e o os hdot hname hread hsemi hstart hstop _ ih =>
    rw [places_append] at hp
    obtain ⟨front', us, rfl, hfront, hp⟩ := List.map_eq_append_iff.1 hp
    obtain ⟨x, us, rfl, hx, hp⟩ := List.map_eq_cons_iff.1 hp
    obtain ⟨y, us, rfl, hy, hp⟩ := List.map_eq_cons_iff.1 hp
    obtain ⟨value', us, rfl, hvalue, hp⟩ := List.map_eq_append_iff.1 (hp.trans (places_append _ _))
    obtain ⟨semi', rest', rfl, hsemi', hrest⟩ := List.map_eq_cons_iff.1 hp
    obtain ⟨kx, linex, offsetx⟩ := x
    obtain ⟨ky, liney, offsety⟩ := y
    cases hx
    cases hy
    exact Covers.next (p := ⟨p.name, linex, p.offset, liney, p.signOffset⟩) (hdot.of_kinds (kinds_of_places hfront))
      hname (hread.same_all (kinds_of_places hvalue)) ((congrArg Prod.fst hsemi').trans hsemi) hstart
      (hstop.trans (congrArg (·.2 + 1) hsemi').symm) (ih hrest)

theorem isWord_traceName : IsWord traceName := by decide

theorem writes_traceName : Writes traceName (.name traceName) := writes_name isWord_traceName (by decide)

theorem writes_empty : Writes "[]".toList (.matrix []) := @writes_square [] [] .nil nofun

theorem appendId_eq (id : Nat) :
    ∃ value, appendId id = assignmentText traceName value ∧ Writes value (traceExpr id) := by
  have hnumber : Writes (Text.ofNat id) (.number (Number.nearest id 0)) :=
    value_ofNat id ▸ writes_numeral (spelled_ofNat id)
  refine ⟨_, ?_, writes_square (.cons (.cons writes_traceName (.cons hnumber .nil)) .nil) (by simp)⟩
  simp [appendId, assignmentText, Text.join_single, Text.join_cons_cons]

theorem kinds_eq_before (h : kinds us = kinds (front ++ p.before (value ++ semi :: rest))) :
    ∃ (front' : List Token) (p' : Spot) (value' : List Token) (semi' : Token) (rest' : List Token),
      us = front' ++ p'.before (value' ++ semi' :: rest') ∧ kinds front' = kinds front ∧ p'.name = p.name ∧
      kinds value' = kinds value ∧ semi'.kind = semi.kind ∧ kinds rest' = kinds rest := by
  obtain ⟨front', us, rfl, hfront, h⟩ := kinds_eq_append h
  obtain ⟨line, offset, us, rfl, hsign⟩ := kinds_eq_token h
  obtain ⟨signLine, signOffset, us, rfl, hvalues⟩ := kinds_eq_token hsign
  obtain ⟨value', us, rfl, hvalue, hsemis⟩ := kinds_eq_append hvalues
  obtain ⟨semi', rest', rfl, hsemi, hrest⟩ := List.map_eq_cons_iff.1 hsemis
  exact ⟨front', ⟨p.name, line, offset, signLine, signOffset⟩, value', semi', rest', rfl, hfront, rfl, hvalue, hsemi,
    hrest⟩

theorem Retold.of_kinds {ts' us' : List Token} (h : Retold name ids ts us) (ht : kinds ts' = kinds ts)
    (hu : kinds us' = kinds us) : Retold name ids ts' us' := by
  induction h generalizing ts' us' with
  | same hk => exact .same (hu.trans (hk.trans ht.symm))
  | next hfront hdot hname hq hread hread' hsemi hsemi' _ ih =>
    obtain ⟨front₁, p₁, value₁, semi₁, rest₁, rfl, hfront₁, hp₁, hvalue₁, hsemi₁, hrest₁⟩ := kinds_eq_before ht
    obtain ⟨front₂, p₂, value₂, semi₂, rest₂, rfl, hfront₂, hp₂, hvalue₂, hsemi₂, hrest₂⟩ := kinds_eq_before hu
    exact .next (hfront₂.trans (hfront.trans hfront₁.symm)) (hdot.of_kinds hfront₁) (hp₁.trans hname) (hp₂.trans hq)
      (hread.same_all hvalue₁) (hread'.same_all hvalue₂) (hsemi₁.trans hsemi) (hsemi₂.trans hsemi') (ih hrest₁ hrest₂)

/-- With the occurrences replaced, the tokens are the same but for the assignments that the occurrences cover. -/
theorem exists_retold {program : Program} {front t : Text} {tsFront : List Token}
    (hs : Spread P front.getLast? front.byteLength t (os.map Occurrence.span)) (hc : Covers name ts os)
    (htok : tokenize (front ++ t) = .ok (tsFront ++ ts)) (hp : ofTokens (tsFront ++ ts) = .ok program)
    (hdot : NoDot tsFront) :
    ∃ us, tokenize (replaceAll (front ++ t) os) = .ok (tsFront ++ us) ∧ Retold name (os.map Occurrence.id) ts us := by
  induction hc generalizing front t tsFront with
  | done => exact ⟨_, htok, .same rfl⟩
  | @next gapTokens value rest p semi e o os hdot' hname hread hsemi hstart hstop _ ih =>
    obtain ⟨gap, span, tail, rfl, hopens, hstart', hstop', hmore⟩ := hs.of_cons
    have hsplit : ∀ us, tsFront ++ (gapTokens ++ p.before (value ++ semi :: us)) =
        tsFront ++ gapTokens ++ p.before (value ++ [semi]) ++ us := fun us => by
      simp [Spot.before]
    -- the occurrences behind this one
    have hmore' : Spread P (front ++ (gap ++ span)).getLast? (front ++ (gap ++ span)).byteLength tail
        (os.map Occurrence.span) := by
      rw [Text.byteLength_append, List.getLast?_append]
      exact hmore
    have hdots : NoDot (tsFront ++ gapTokens ++ p.before (value ++ [semi])) := by
      intro x hx
      have hlast : tsFront ++ gapTokens ++ p.before (value ++ [semi]) =
          tsFront ++ gapTokens ++ p.before value ++ [semi] := by
        simp [Spot.before]
      rw [hlast, List.getLast?_concat] at hx
      cases hx
      simp [hsemi]
    obtain ⟨us, hus, hretold⟩ := ih hmore' (by rw [← hsplit]; simpa using htok) (hsplit rest ▸ hp) hdots
    obtain ⟨tail', htail⟩ : ∃ tail', replaceAll (front ++ (gap ++ span) ++ tail) os = front ++ (gap ++ span) ++ tail' :=
      ⟨_, hmore'.laid.replaceAll_eq rfl⟩
    -- this one
    rw [htail, ← hsplit, ← List.append_assoc tsFront] at hus
    rw [← List.append_assoc] at hp
    obtain ⟨hbalanced, -⟩ := ofTokens_replace hp (hdot.append hdot')
    have hvalue : nestAll [] (kinds value) = some [] := by
      obtain ⟨chunk, hchunk, -, hb, -⟩ := hread.chunk
      rw [List.append_nil] at hchunk
      exact hchunk ▸ hb []
    obtain ⟨new, hnew, hwrites⟩ := appendId_eq o.id
    obtain ⟨q, value', semi', rest', htok', hq, hsemi', hread', hrest⟩ :=
      tokenize_replaced (front ++ gap) span tail' (by simpa using hus) (hbalanced [])
        hvalue hsemi (by rw [← hstart, hstart', Text.byteLength_append])
        (by rw [← hstop, hstop', List.append_assoc, Text.byteLength_append front])
        (by rw [List.getLast?_append]; exact hopens) isWord_traceName hwrites
    refine ⟨gapTokens ++ q.before (value' ++ semi' :: rest'), ?_,
      .next rfl hdot' hname hq hread hread' hsemi hsemi' (hretold.of_kinds rfl hrest)⟩
    rw [← List.append_assoc front, replaceAll_cons (front ++ gap) span tail'
      (by rw [hstart', Text.byteLength_append]) (by rw [hstop', List.append_assoc, Text.byteLength_append front])
      (by simpa using htail), hnew, htok', List.append_assoc]

/-! ## The line in front -/

theorem instrument_eq (masked : Text) (os : List Occurrence) :
    instrument masked os =
      assignmentText traceName "[]".toList ++ '\n' :: unmask (replaceAll masked os) := by
  simp [instrument, assignmentText]

/-- A traced script starts the trace and goes on with the tokens of the script whose occurrences are replaced. -/
theorem tokenize_instrument {masked : Text} (h : tokenize (unmask (replaceAll masked os)) = .ok us) :
    ∃ (q : Spot) (value : List Token) (semi brk : Token) (us' : List Token),
      tokenize (instrument masked os) = .ok (q.before (value ++ semi :: brk :: us')) ∧ q.name = traceName ∧
      ReadsExpr value (.matrix []) [] ∧ semi.kind = .semicolon ∧ brk.kind = .newline ∧ kinds us' = kinds us := by
  obtain ⟨last, hr, hlast, htok⟩ := scan_eq_ok.1 h
  obtain ⟨s₁, q, value, semi, hr₁, hg₁, htok₁, hq, hsemi, hread⟩ :=
    run_assignment isWord_traceName writes_empty (show Scan.start.groups = [] from rfl)
      ('\n' :: unmask (replaceAll masked os))
  have hsimilar : Similar [] (s₁.after .newline '\n').tokens .start (s₁.after .newline '\n') :=
    ⟨hg₁.symm, rfl, nofun, [], [], rfl, rfl, rfl⟩
  obtain ⟨last', hr₂, hgroups, -, -, new, new', hnew, hnew', hkinds⟩ := hr.mirror hsimilar
  refine ⟨q, value, semi, ⟨.newline, s₁.line, s₁.offset⟩, new'.reverse, scan_eq_ok.2 ⟨last', ?_, hgroups ▸ hlast, ?_⟩,
    hq, hread, hsemi, rfl, ?_⟩
  · rw [instrument_eq]
    exact hr₁.trans (.cons (step_newline hg₁) hr₂)
  · rw [hnew', List.reverse_append, Scan.after, List.reverse_cons, htok₁]
    simp [Spot.before, Scan.start]
  · rw [htok, hnew, List.append_nil, kinds_reverse, kinds_reverse, hkinds]

end Edit

end ConfigScript
