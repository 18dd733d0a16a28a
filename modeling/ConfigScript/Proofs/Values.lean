import ConfigScript.Proofs.Scanning
/-!
# A value in front of another rest

A value that is complete where a semicolon follows it has the same kinds of tokens wherever no
bracket is open (`Complete.tokens`). A script goes on behind its own semicolon, or behind the line that
a comment at the end of the value takes with it, as it did before (`Complete.resumes`,
`Complete.resumes_comment`). Only a comment or a continuation takes in a semicolon that is written at
the end of a text (`Step.open_end`).
-/

namespace ConfigScript

namespace Token

open Program (nestAll nestAll_append)

variable {s s' s₀ s₁ s₂ : Scan} {t t₁ code comment post rest : Text} {c : Char}

/-! ## The end of a line -/

/-- Blanks add no token. -/
theorem run_blanks {blanks : Text} (h : ∀ c ∈ blanks, isSpace c = true) :
    ∃ s', Run s (blanks ++ t) s' t ∧ s'.groups = s.groups ∧ s'.tokens = s.tokens := by
  induction blanks generalizing s with
  | nil => exact ⟨s, .nil, rfl, rfl⟩
  | cons c blanks ih =>
    have hc : isSpace c = true := h c List.mem_cons_self
    have htail : ∀ d ∈ blanks, isSpace d = true := fun d hd => h d (List.mem_cons_of_mem c hd)
    obtain ⟨s', hr, hg, ht⟩ := @ih { s.pass [c] with spaced := true } htail
    exact ⟨s', .cons (.blank hc) hr, hg, ht⟩

theorem restOfLine_cons (h : c ≠ '\n') (t : Text) :
    restOfLine (c :: t) = (c :: (restOfLine t).1, (restOfLine t).2) := by
  simp [restOfLine, h]

/-- Behind a line is the end of the text or a line break. -/
theorem restOfLine_end (t : Text) : (restOfLine t).2 = [] ∨ ∃ u, (restOfLine t).2 = '\n' :: u := by
  have h := (@restOfLine_eq t (restOfLine t).2 (restOfLine t).1 rfl).2
  cases hr : (restOfLine t).2 with
  | nil => exact .inl rfl
  | cons c u =>
    rw [hr] at h
    obtain rfl : c = '\n' := by simpa using h
    exact .inr ⟨u, rfl⟩

theorem restOfLine_rest (t : Text) : restOfLine (restOfLine t).2 = ([], (restOfLine t).2) := by
  rcases restOfLine_end t with h | ⟨u, h⟩
  · rw [h]
    rfl
  · rw [h]
    rfl

theorem continuation_rest (t : Text) : (continuation t).2 = (restOfLine t).2.drop 1 := by
  have hend := restOfLine_end t
  unfold continuation
  split
  · next heq => simp [heq]
  · next tail r hne heq =>
    rw [heq] at hend
    rcases hend with rfl | ⟨u, rfl⟩
    · simp [heq]
    · exact (hne u rfl).elim

/-- Behind a separator outside brackets. -/
theorem Step.separator (h : Step s (c :: t) s₁ t₁) (hg : s.groups = []) {x : Token}
    (htok : s₁.tokens = x :: s.tokens) (hx : x.kind.separates = true) :
    t₁ = t ∧ s₁.groups = [] ∧ s₁.afterOperand = false ∧ s₁.offset = s.offset + Text.byteLength [c] := by
  obtain ⟨-, ht, hs⟩ := h.sign hg htok (.inr hx)
  have ho : s₁.afterOperand = false := by
    simp [Scan.afterOperand, htok, not_endsOperand_of_separates hx]
  refine ⟨ht, ?_, ho, ?_⟩
  · rw [hs]
    exact hg
  · rw [hs]
    rfl

/-- If only separators are left on a line, the scan goes on behind it with no bracket open. -/
theorem Run.skipLine (h : Run s t s₁ []) (hg : s.groups = []) (ho : s.afterOperand = false)
    (hsep : ∀ x ∈ s₁.tokens, s.offset ≤ x.offset → x.offset < s.offset + (restOfLine t).1.byteLength →
      x.kind.separates = true) :
    ∃ s₂ seps, Run s₂ ((restOfLine t).2.drop 1) s₁ [] ∧ s₂.groups = [] ∧ s₂.afterOperand = false ∧
      s₂.tokens = seps ++ s.tokens ∧ ∀ x ∈ seps, x.kind.separates = true := by
  generalize hnil : ([] : Text) = last at h
  -- where the line stops stays the same on the way
  generalize hstop : s.offset + (restOfLine t).1.byteLength = stop at hsep
  induction h with
  | nil =>
    subst hnil
    exact ⟨_, [], .nil, hg, ho, rfl, nofun⟩
  | @cons s next s₁ t _ _ hs hr ih =>
    subst hnil
    cases hs with
    | @blank c t hc =>
      have hn : c ≠ '\n' := by
        rintro rfl
        exact absurd hc (by decide)
      rw [restOfLine_cons hn] at hstop ⊢
      refine ih hg ho rfl ?_ fun x hx hle => hsep x hx (Nat.le_trans (Nat.le_add_right _ _) hle)
      simp only [Scan.pass, Text.byteLength] at hstop ⊢
      omega
    | @continued c t hc =>
      have hn : c ≠ '\n' := by
        rintro rfl
        exact absurd hc (by simp [startsContinuation])
      rw [restOfLine_cons hn]
      rw [continuation_rest] at hr
      exact ⟨_, [], hr, hg, ho, rfl, nofun⟩
    | @comment t =>
      -- nothing is left of the line
      have hline : (restOfLine ('%' :: t)).2 = (restOfLine (restOfLine t).2).2 := by
        rw [restOfLine_cons (by decide), restOfLine_rest]
      rw [restOfLine_cons (by decide)] at hstop
      rw [hline]
      refine ih hg ho rfl ?_ fun x hx hle => hsep x hx (Nat.le_trans (Nat.le_add_right _ _) hle)
      rw [restOfLine_rest]
      exact hstop
    | @token _ c t l hat hl ht =>
      have hstep : Step _ (c :: t) next l.rest := .token hat hl ht
      by_cases hn : c = '\n'
      · subst hn
        obtain ⟨rfl, hrest⟩ := hstep.unique (step_newline hg)
        rw [hrest] at hr
        refine ⟨_, [_], hr, hg, rfl, rfl, ?_⟩
        simp [TokenKind.separates]
      · obtain ⟨kind, htok⟩ := Scan.tokens_of_take ht
        rw [Scan.separated_of_groups hg] at htok
        rw [restOfLine_cons hn] at hstop ⊢
        obtain ⟨u, new, ha⟩ := hr.advance
        have hkind : kind.separates = true := by
          refine hsep ⟨kind, s.line, s.offset⟩ ?_ (Nat.le_refl _) (hstop ▸ Nat.lt_add_of_pos_right ?_)
          · rw [ha.tokens, htok]
            exact List.mem_append_right new List.mem_cons_self
          · exact Text.byteLength_pos (List.cons_ne_nil _ _)
        obtain ⟨hrest, hg₁, ho₁, hoff⟩ := hstep.separator hg htok hkind
        rw [hrest] at ih
        have hle₁ : s.offset ≤ next.offset := hoff ▸ Nat.le_add_right _ _
        have hstop₁ : next.offset + (restOfLine t).1.byteLength = stop := by
          rw [hoff]
          simp only [Text.byteLength] at hstop ⊢
          omega
        obtain ⟨s₂, seps, hr₂, hg₂, ho₂, htok₂, hseps⟩ :=
          ih hg₁ ho₁ rfl hstop₁ fun x hx hle => hsep x hx (Nat.le_trans hle₁ hle)
        refine ⟨s₂, seps ++ [⟨kind, s.line, s.offset⟩], hr₂, hg₂, ho₂, ?_, ?_⟩
        · rw [htok₂, htok, List.append_assoc]
          rfl
        · intro x hx
          rcases List.mem_append.1 hx with hx | hx
          · exact hseps x hx
          · rw [List.mem_singleton.1 hx]
            exact hkind

/-! ## Complete values -/

/-- A semicolon behind the text is the last of its tokens. -/
def Complete (code : Text) : Prop :=
  ∃ ts line, tokenize (code ++ [';']) = .ok (ts ++ [⟨.semicolon, line, code.byteLength⟩])

theorem complete_iff :
    Complete code ↔ ((tokenize (code ++ [';'])).toOption.bind List.getLast?).any
      (fun x => x.kind == .semicolon && x.offset == code.byteLength) = true := by
  unfold Complete
  cases tokenize (code ++ [';']) with
  | error e => simp [Except.toOption]
  | ok ts =>
    simp only [Except.toOption, Option.bind_some, Option.any_eq_true, Bool.and_eq_true,
      TokenKind.beq_semicolon, beq_iff_eq, Except.ok.injEq, List.getLast?_eq_some_iff]
    constructor
    · rintro ⟨front, line, rfl⟩
      exact ⟨_, ⟨front, rfl⟩, rfl, rfl⟩
    · rintro ⟨⟨kind, line, offset⟩, ⟨front, rfl⟩, rfl, rfl⟩
      exact ⟨front, line, rfl⟩

instance : Decidable (Complete code) := decidable_of_iff _ complete_iff.symm

/-- A complete text runs the same in front of whatever closes it, and no bracket is open behind it. -/
theorem Complete.run (h : Complete code) :
    ∃ s, s.groups = [] ∧ ∀ rest, Closed rest → Run .start (code ++ rest) s rest := by
  obtain ⟨ts, line, h⟩ := h
  obtain ⟨s', hr, hg, htok⟩ := scan_eq_ok.1 h
  have hb : nestAll [] (kinds ts) = some [] := by
    have hn := hr.wellNested wellNested_start
    rw [WellNested, hg, ← htok, kinds_append, nestAll_append] at hn
    obtain ⟨gs, hgs, hn⟩ := Option.bind_eq_some_iff.1 hn
    rw [hgs]
    exact hn
  obtain ⟨s, c, v, s₃, t₃, hr₁, hs, -, -, hg₁, htok₁, htok₃, hoff, -⟩ :=
    hr.reachOutside wellNested_start htok.symm (by simp) hb (Nat.zero_le _)
  obtain ⟨hsign, -⟩ := hs.sign hg₁ htok₃ (.inr rfl)
  cases hsign
  obtain ⟨u, new, ha⟩ := hr₁.advance
  obtain ⟨rfl, hv⟩ : code = u ∧ [';'] = ';' :: v := by
    refine Text.append_inj ha.text ?_
    rw [show code.byteLength = s.offset from hoff, ha.offset]
    exact Nat.zero_add _
  cases hv
  refine ⟨s, hg₁, fun rest hrest => ?_⟩
  have hsemi : Closed [';'] := closed_cons.2 (.inr (.inl rfl))
  exact hr₁.exchange (.closed hsemi hrest) ⟨List.cons_ne_nil _ _, by decide⟩ (.inr hg₁)

/-- What a step to the end of a text has read, if a semicolon there would belong to it. -/
theorem Step.open_end (h : Step s t s₁ []) (hg : s₁.groups = []) :
    Step s (t ++ [';']) s₁ [';'] ∨
    (∃ comment, t = '%' :: comment ∧ '\n' ∉ comment ∧ s.groups = []) ∨
    ∃ tail, t = '.' :: '.' :: '.' :: tail ∧ '\n' ∉ tail := by
  have hclosed : Closed [';'] := closed_cons.2 (.inr (.inl rfl))
  by_cases hcomment : t.head? = some '%'
  · cases t with
    | nil => cases hcomment
    | cons c comment =>
      obtain rfl : c = '%' := by simpa using hcomment
      obtain ⟨rfl, hrest⟩ := h.unique .comment
      have hline : restOfLine comment = (comment, []) := by
        have happ := restOfLine_append comment
        rw [← hrest, List.append_nil] at happ
        exact Prod.ext happ hrest.symm
      exact .inr (.inl ⟨comment, rfl, (restOfLine_eq hline).1, hg⟩)
  by_cases hcont : startsContinuation t = true ∧ '\n' ∉ t
  · obtain ⟨hc, hn⟩ := hcont
    unfold startsContinuation at hc
    split at hc
    · next tail => exact .inr (.inr ⟨tail, rfl, by simpa using hn⟩)
    · cases hc
  · refine .inl ?_
    rw [← List.append_nil t] at h
    exact h.exchange (alike_append hclosed []) (fun _ hc hn => (hcont ⟨by simpa using hc, hn⟩).elim)
      (fun hc => (hcomment hc).elim) (.inr hg)

/-- A run to the end of a text comes to its last step in the same way if a semicolon is written at the end. -/
theorem Run.last_step (h : Run s t s₁ []) : (t = [] ∧ s = s₁) ∨ ∃ code s₂ last,
    t = code ++ last ∧ Run s t s₂ last ∧ Run s (t ++ [';']) s₂ (last ++ [';']) ∧ Step s₂ last s₁ [] := by
  generalize hnil : ([] : Text) = rest at h
  induction h with
  | nil =>
    subst hnil
    exact .inl ⟨rfl, rfl⟩
  | @cons s s₂ s₁ t t₁ _ hs hr ih =>
    subst hnil
    cases t₁ with
    | nil =>
      obtain ⟨rfl, -⟩ := hr.of_nil
      exact .inr ⟨[], s, t, rfl, .nil, .nil, hs⟩
    | cons c t₁ =>
      obtain ⟨u, _, -, hu⟩ := hs.advance
      obtain rfl := hu.text
      obtain ⟨code, s₃, last, hc, hr₃, hr₃', hlast⟩ := (ih rfl).resolve_left fun h => List.cons_ne_nil _ _ h.1
      refine .inr ⟨u ++ code, s₃, last, by rw [hc, List.append_assoc], .cons hs hr₃, .cons ?_ hr₃', hlast⟩
      rw [List.append_assoc]
      refine hs.exchange (alike_append (closed_cons.2 (.inr (.inl rfl))) _) nofun (fun hc => .inr ?_)
        (.inl rfl)
      exact (hs.break_of_comment hc).resolve_left (List.cons_ne_nil _ _)

/-- The tokens of a complete text, wherever no bracket is open. -/
theorem Complete.tokens (h : Complete code) (hg : s.groups = []) (ho : s.afterOperand = false) :
    ∃ ts, (∀ rest, Closed rest → ∃ s₁ value, Run s (code ++ rest) s₁ rest ∧ s₁.groups = [] ∧
        s₁.tokens = value.reverse ++ s.tokens ∧ kinds value = kinds ts) ∧
      tokenize code = .ok ts ∧ ∀ comment, '\n' ∉ comment → tokenize (code ++ '%' :: comment) = .ok ts := by
  obtain ⟨s₀, hg₀, hr⟩ := h.run
  refine ⟨s₀.tokens.reverse, fun rest hrest => ?_, ?_, fun comment hn => ?_⟩
  · have hstart : Similar [] s.tokens .start s := ⟨hg.symm, ho.symm, nofun, [], [], rfl, rfl, rfl⟩
    obtain ⟨s₁, hr₁, hs⟩ := (hr rest hrest).mirror hstart
    obtain ⟨new, new', hnew, hnew', hk⟩ := hs.gained
    refine ⟨s₁, new'.reverse, hr₁, hs.groups ▸ hg₀, by rw [List.reverse_reverse, hnew'], ?_⟩
    rw [hnew, List.append_nil, kinds_reverse, kinds_reverse, hk]
  · have := hr [] closed_nil
    rw [List.append_nil] at this
    exact scan_eq_ok.2 ⟨s₀, this, hg₀, rfl⟩
  · have hline : restOfLine comment = (comment, []) := by
      have := @restOfLine_of_break [] _ hn (.inl rfl)
      rwa [List.append_nil] at this
    have hs := @Step.comment s₀ comment
    rw [hline] at hs
    exact scan_eq_ok.2 ⟨_, (hr _ (closed_cons.2 (.inr (.inr rfl)))).trans (.single hs), hg₀, rfl⟩

/-! ## Going on behind a value -/

/-- Two lists of tokens start with separators and go on with the same kinds of tokens. The second one
starts with a separator unless it is at its end. -/
inductive Rejoins : List Token → List Token → Prop
  | mk {seps seps' more more' : List Token} :
    (∀ x ∈ seps, x.kind.separates = true) → (∀ x ∈ seps', x.kind.separates = true) →
    (seps' = [] → more' = []) → kinds more' = kinds more → Rejoins (seps ++ more) (seps' ++ more')

theorem Rejoins.head {ts ts' : List Token} (h : Rejoins ts ts') :
    ∀ x ∈ ts'.head?, x.kind.separates = true := by
  cases h with
  | @mk seps seps' more more' _ hseps hend _ =>
    cases seps' with
    | nil =>
      rw [hend rfl]
      exact nofun
    | cons x seps' =>
      rintro _ ⟨⟩
      exact hseps x List.mem_cons_self

/-- A run from `s` collects these kinds of tokens and then, but for separators, those that another
run has collected behind its semicolon at `s₀`. -/
inductive Resumes (s₀ s' s : Scan) (t : Text) (ts : List Token) : Prop
  | mk {s'' : Scan} {value rest rest' : List Token} :
    Run s t s'' [] → s''.groups = [] → s'.tokens = rest.reverse ++ s₀.tokens →
    s''.tokens = rest'.reverse ++ (value.reverse ++ s.tokens) → kinds value = kinds ts →
    Rejoins rest rest' → Resumes s₀ s' s t ts

theorem Run.behindSemicolon (h : Run s₀ (';' :: post) s' []) (hg : s₀.groups = []) :
    Run (s₀.after .semicolon ';') post s' [] := by
  cases h with
  | cons hs hr =>
    obtain ⟨rfl, rfl⟩ := hs.unique (step_semicolon hg)
    exact hr

/-- A scan goes on behind a separator as another one does. -/
theorem Run.rejoins {old new seps : List Token} {x : Token} (h : Run s₀ t s' []) (hg' : s'.groups = [])
    (hg₀ : s₀.groups = []) (ho₀ : s₀.afterOperand = false) (hold : s₀.tokens = seps.reverse ++ old)
    (hseps : ∀ x ∈ seps, x.kind.separates = true) (hg : s.groups = []) (hnew : s.tokens = x :: new)
    (hx : x.kind.separates = true) :
    ∃ s'' rest rest', Run s t s'' [] ∧ s''.groups = [] ∧ s'.tokens = rest.reverse ++ old ∧
      s''.tokens = rest'.reverse ++ new ∧ Rejoins rest rest' := by
  have ho : s.afterOperand = false := by
    simp [Scan.afterOperand, hnew, not_endsOperand_of_separates hx]
  have hsim : Similar s₀.tokens s.tokens s₀ s := by
    refine ⟨hg₀.trans hg.symm, ho₀.trans ho.symm, fun h => ?_, [], [], rfl, rfl, rfl⟩
    rw [ho₀] at h
    cases h
  obtain ⟨s'', hr, hs⟩ := h.mirror hsim
  obtain ⟨more, more', hmore, hmore', hk⟩ := hs.gained
  have hsep : ∀ y ∈ [x], y.kind.separates = true := fun y hy => List.mem_singleton.1 hy ▸ hx
  refine ⟨s'', seps ++ more.reverse, [x] ++ more'.reverse, hr, hs.groups ▸ hg', ?_, ?_, ?_⟩
  · rw [hmore, hold]
    simp
  · rw [hmore', hnew]
    simp
  · refine .mk hseps hsep (fun h => (List.cons_ne_nil _ _ h).elim) ?_
    rw [kinds_reverse, kinds_reverse, hk]

theorem Complete.resumes (h : Complete code) (hg : s.groups = []) (ho : s.afterOperand = false)
    (hold : Run s₀ (';' :: post) s' []) (hg₀ : s₀.groups = []) (hg' : s'.groups = []) :
    ∃ ts, tokenize code = .ok ts ∧ Resumes s₀ s' s (code ++ ';' :: post) ts := by
  obtain ⟨ts, hrun, htok, -⟩ := h.tokens hg ho
  obtain ⟨s₁, value, hr, hg₁, htok₁, hk⟩ := hrun (';' :: post) (closed_cons.2 (.inr (.inl rfl)))
  have hseps : ∀ x ∈ [(⟨.semicolon, s₀.line, s₀.offset⟩ : Token)], x.kind.separates = true := by
    simp [TokenKind.separates]
  obtain ⟨s'', rest, rest', hr', hg'', hrest, hrest', hj⟩ :=
    @Run.rejoins (s₁.after .semicolon ';') s' _ post s₀.tokens s₁.tokens _ _ (hold.behindSemicolon hg₀)
      hg' hg₀ rfl rfl hseps hg₁ rfl rfl
  refine ⟨ts, htok, .mk (hr.trans (.cons (step_semicolon hg₁) hr')) hg'' hrest ?_ hk hj⟩
  rw [hrest', htok₁]

theorem restOfLine_append_rest {u : Text} (hu : '\n' ∉ u) (t : Text) :
    (restOfLine (u ++ t)).2 = (restOfLine t).2 := by
  induction u with
  | nil => rfl
  | cons c u ih =>
    have hc : c ≠ '\n' := fun h => hu (h ▸ List.mem_cons_self)
    rw [List.cons_append, restOfLine_cons hc]
    exact ih fun h => hu (List.mem_cons_of_mem c h)

/-- A comment at the end of the value takes the line behind it with it. -/
theorem Complete.resumes_comment (h : Complete code) (hn : '\n' ∉ comment) (hg : s.groups = [])
    (ho : s.afterOperand = false) (hold : Run s₀ (';' :: post) s' []) (hg₀ : s₀.groups = [])
    (hg' : s'.groups = [])
    (hline : ∀ x ∈ s'.tokens, s₀.offset + 1 ≤ x.offset →
      x.offset < s₀.offset + 1 + (restOfLine post).1.byteLength → x.kind.separates = true) :
    ∃ ts, tokenize (code ++ '%' :: comment) = .ok ts ∧
      Resumes s₀ s' s (code ++ '%' :: comment ++ ';' :: post) ts := by
  obtain ⟨ts, hrun, -, htok⟩ := h.tokens hg ho
  refine ⟨ts, htok comment hn, ?_⟩
  obtain ⟨s₁, value, hr, hg₁, htok₁, hk⟩ :=
    hrun ('%' :: (comment ++ ';' :: post)) (closed_cons.2 (.inr (.inr rfl)))
  have hcomment := @Step.comment s₁ (comment ++ ';' :: post)
  have hskip : (restOfLine (comment ++ ';' :: post)).2 = (restOfLine post).2 := by
    have := @restOfLine_append_rest (comment ++ [';']) (by simp [hn]) post
    rwa [List.append_assoc] at this
  rw [hskip] at hcomment
  rw [List.append_assoc]
  -- the old script goes on behind the same line
  obtain ⟨s₂, seps, hr₂, hg₂, ho₂, htok₂, hseps⟩ := (hold.behindSemicolon hg₀).skipLine hg₀ rfl hline
  have hall : ∀ x ∈ (⟨.semicolon, s₀.line, s₀.offset⟩ : Token) :: seps.reverse, x.kind.separates = true := by
    intro x hx
    rcases List.mem_cons.1 hx with rfl | hx
    · rfl
    · exact hseps x (List.mem_reverse.1 hx)
  have hold₂ : s₂.tokens = (⟨.semicolon, s₀.line, s₀.offset⟩ :: seps.reverse).reverse ++ s₀.tokens := by
    rw [htok₂]
    simp [Scan.after]
  rcases restOfLine_end post with hend | ⟨u, hend⟩
  · rw [hend] at hr₂ hcomment
    obtain ⟨rfl, -⟩ := hr₂.of_nil
    refine @Resumes.mk _ _ _ _ _ _ value _ [] (hr.trans (.single hcomment)) hg₁ hold₂ htok₁ hk ?_
    have hj := @Rejoins.mk _ [] [] [] hall (by simp) (fun _ => rfl) rfl
    rwa [List.append_nil] at hj
  · rw [hend] at hr₂ hcomment
    let s₃ := s₁.pass ('%' :: (restOfLine (comment ++ ';' :: post)).1)
    have hbreak := @step_newline s₃ u hg₁
    obtain ⟨s'', rest, rest', hr', hg'', hrest, hrest', hj⟩ :=
      @Run.rejoins (s₃.after .newline '\n') s' s₂ u s₀.tokens s₃.tokens _ _ hr₂ hg' hg₂ ho₂ hold₂ hall
        hg₁ rfl rfl
    refine .mk (hr.trans (.cons hcomment (.cons hbreak hr'))) hg'' hrest ?_ hk hj
    rw [hrest']
    exact congrArg (rest'.reverse ++ ·) htok₁

end Token

end ConfigScript
