import ConfigScript.Proofs.Cuts
import ConfigScript.Proofs.Masked
import Mathlib.Data.List.Infix
/-!
# Masked and unmasked

A script that is masked and unmasked again has blanks for its continuations and is otherwise the same.
In a script without transposes the mask reads the lexemes of the tokens, so the script keeps its tokens in
their places (`tokenize_revealed`). Only a sign in brackets that is followed by a continuation may lose the
comma in front of it (`kinds_unmask_sanitize_sign`).
-/

namespace ConfigScript

namespace Edit

open Token Mask

variable {m : State} {t u rest : Text} {c : Char} {l : Lexeme}

/-! ## Steps of the scan -/

theorem next_point (m : State) : m.next '.' = m := by
  simp [State.next, State.afterQuote, State.afterBreak, State.afterCode]

/-- The first continuation is where the text and what masking makes of it begin to differ. -/
theorem reveal_cases (hm : m.continuation = false) (hs : sentinel ∉ t) :
    reveal m t = t ∨ ∃ p r r', t = p ++ '.' :: '.' :: '.' :: r ∧ reveal m t = p ++ ' ' :: r' ∧
      p.getLast? ≠ some '.' := by
  induction t generalizing m with
  | nil => exact .inl rfl
  | cons c t ih =>
    by_cases hdots : m.code = true ∧ startsContinuation (c :: t) = true
    · obtain ⟨hcode, hdots⟩ := hdots
      unfold startsContinuation at hdots
      split at hdots
      · next heq =>
        rw [heq]
        exact .inr ⟨[], _, _, rfl, reveal_dots hcode _, by simp⟩
      · cases hdots
    · have hnext : (m.next c).continuation = false := by rw [continuation_next, hm, Bool.false_and]
      rw [reveal_cons hdots hm (List.ne_of_not_mem_cons hs).symm]
      rcases ih hnext fun hmem => hs (List.mem_cons_of_mem c hmem) with heq | ⟨p, r, r', ht, hr, hlast⟩
      · exact .inl (by rw [heq])
      · refine .inr ⟨c :: p, r, r', by rw [ht]; rfl, by rw [hr]; rfl, ?_⟩
        cases p with
        | cons d p => simpa using hlast
        | nil =>
          intro hpoint
          obtain rfl : c = '.' := by simpa using hpoint
          -- the mask would have begun the continuation one point earlier
          have hcode : ¬ m.code = true := fun hcode => hdots ⟨hcode, by rw [ht]; rfl⟩
          rw [next_point, ht, List.nil_append, reveal_cons (by simp [hcode]) hm (by decide)] at hr
          cases hr

/-- What a token is and where it stands, its line aside. -/
def place (x : Token) : TokenKind × Nat := (x.kind, x.offset)

/-- The tokens are the same and stand in the same places, on whatever lines. -/
def places (ts : List Token) : List (TokenKind × Nat) := ts.map place

/-- Two states that differ only in lines. -/
structure Twin (s s' : Scan) : Prop where
  groups : s.groups = s'.groups
  offset : s.offset = s'.offset
  spaced : s.spaced = s'.spaced
  tokens : places s.tokens = places s'.tokens

variable {s s' s₁ : Scan} {t₁ : Text}

theorem Twin.afterOperand (h : Twin s s') : s.afterOperand = s'.afterOperand := by
  have htokens := h.tokens
  unfold Scan.afterOperand
  cases ht : s.tokens with
  | nil =>
    rw [ht] at htokens
    rw [List.map_eq_nil_iff.1 htokens.symm]
  | cons x ts =>
    rw [ht] at htokens
    obtain ⟨y, us, hy, hplace, -⟩ := List.map_eq_cons_iff.1 htokens.symm
    rw [hy]
    exact congrArg (TokenKind.endsOperand ∘ Prod.fst) hplace.symm

theorem Twin.concatenates (h : Twin s s') : s.concatenates = s'.concatenates := by
  rw [Scan.concatenates, Scan.concatenates, h.groups]

theorem Twin.emit (h : Twin s s') (kind : TokenKind) : Twin (s.emit kind) (s'.emit kind) where
  groups := h.groups
  offset := h.offset
  spaced := h.spaced
  tokens := by
    have hplace : place ⟨kind, s.line, s.offset⟩ = place ⟨kind, s'.line, s'.offset⟩ := by
      rw [place, place, h.offset]
    exact List.cons_eq_cons.2 ⟨hplace, h.tokens⟩

theorem Twin.separated (h : Twin s s') (c : Char) (next : Option Char) :
    Twin (s.separated c next) (s'.separated c next) := by
  unfold Scan.separated
  rw [h.spaced, h.concatenates, h.afterOperand]
  split
  · exact h.emit _
  · exact h

theorem Twin.take (h : Twin s s') (ht : s.take l = .ok s₁) : ∃ s₁', s'.take l = .ok s₁' ∧ Twin s₁ s₁' := by
  obtain ⟨gs, hn, rfl⟩ := Scan.take_eq_ok.1 ht
  have hk : s.settledKind l.kind = s'.settledKind l.kind := by
    rw [Scan.settledKind, Scan.settledKind, h.concatenates]
  rw [h.groups, hk] at hn
  refine ⟨_, Scan.take_eq_ok.2 ⟨gs, hn, rfl⟩, rfl, ?_, rfl, ?_⟩
  · exact congrArg (· + l.spelling.byteLength) h.offset
  · rw [hk]
    exact (h.emit _).tokens

theorem Twin.pass (h : Twin s s') {u u' : Text} (hu : u.byteLength = u'.byteLength) :
    Twin (s.pass u) (s'.pass u') where
  groups := h.groups
  offset := by rw [Scan.pass, Scan.pass, h.offset, hu]
  spaced := h.spaced
  tokens := h.tokens

/-- Blanks were passed, whatever was before. -/
theorem Twin.space (h : Twin s s') : Twin { s with spaced := true } { s' with spaced := true } :=
  ⟨h.groups, h.offset, rfl, h.tokens⟩

theorem Twin.step (h : Twin s s') (hs : Step s t s₁ t₁) : ∃ s₁', Step s' t s₁' t₁ ∧ Twin s₁ s₁' := by
  cases hs with
  | blank hc => exact ⟨_, .blank hc, (h.pass rfl).space⟩
  | continued hc => exact ⟨_, .continued hc, (h.pass rfl).space⟩
  | comment => exact ⟨_, .comment, h.pass rfl⟩
  | @token _ c t l hat hl ht =>
    obtain ⟨s₁', ht', h'⟩ := (h.separated c t.head?).take ht
    rw [(h.separated c t.head?).afterOperand, h.spaced] at hl
    exact ⟨s₁', .token hat hl ht', h'⟩

/-- A scan goes over blanks. -/
theorem run_replicate (s : Scan) (n : Nat) (t : Text) :
    ∃ s', Run s (List.replicate (n + 1) ' ' ++ t) s' t ∧
      Twin { s.pass (List.replicate (n + 1) ' ') with spaced := true } s' := by
  induction n generalizing s with
  | zero => exact ⟨_, .single (.blank rfl), rfl, rfl, rfl, rfl⟩
  | succ n ih =>
    obtain ⟨s', hr, hg, ho, hsp, htok⟩ := ih { s.pass [' '] with spaced := true }
    refine ⟨s', .cons (.blank rfl) hr, hg, ?_, hsp, htok⟩
    rw [← ho]
    simp only [Scan.pass, byteLength_blanks, Text.byteLength]
    have hone : Char.utf8Size ' ' = 1 := rfl
    omega

theorem Twin.trans {s'' : Scan} (h : Twin s s') (h' : Twin s' s'') : Twin s s'' :=
  ⟨h.groups.trans h'.groups, h.offset.trans h'.offset, h.spaced.trans h'.spaced, h.tokens.trans h'.tokens⟩

theorem Twin.refl (s : Scan) : Twin s s := ⟨rfl, rfl, rfl, rfl⟩

theorem Step.revealed_blank (h : Twin s s') (hm : Plain m) (hc : isSpace c = true) :
    ∃ s₁', Run s' (reveal m (c :: t)) s₁' (reveal m t) ∧ Twin { s.pass [c] with spaced := true } s₁' := by
  have ht : reveal m (c :: t) = c :: reveal m t := (hm.passes_blank hc t).reveal
  rw [ht]
  exact ⟨_, .single (.blank hc), (h.pass rfl).space⟩

theorem Step.revealed_continuation (h : Twin s s') (hm : Plain m) (hc : startsContinuation (c :: t) = true) :
    ∃ m' s₁', Plain m' ∧ Run s' (reveal m (c :: t)) s₁' (reveal m' (continuation t).2) ∧
      Twin { s.pass (c :: (continuation t).1) with spaced := true } s₁' := by
  obtain ⟨m', hm', hp⟩ := hm.passes_continuation hc
  have ht := hp.reveal
  rw [List.cons_append, continuation_append] at ht
  obtain ⟨n, hn⟩ : ∃ n, Text.byteLength (c :: (continuation t).1) = n + 1 :=
    Nat.exists_eq_succ_of_ne_zero (Nat.ne_of_gt (Text.byteLength_pos (List.cons_ne_nil _ _)))
  obtain ⟨s₁', hr, htwin⟩ := run_replicate s' n (reveal m' (continuation t).2)
  rw [ht, hn]
  refine ⟨m', s₁', hm', hr, ((h.pass ?_).space).trans htwin⟩
  rw [byteLength_blanks, hn]

theorem Step.revealed_comment (h : Twin s s') (hm : Plain m) (hs : sentinel ∉ t) :
    ∃ m' s₁', Between m' (restOfLine t).2 ∧ Run s' (reveal m ('%' :: t)) s₁' (reveal m' (restOfLine t).2) ∧
      Twin (s.pass ('%' :: (restOfLine t).1)) s₁' := by
  have hcomment := hm.next_percent
  obtain ⟨hline, hend⟩ := @restOfLine_eq t (restOfLine t).2 (restOfLine t).1 rfl
  have hrest : reveal (m.next '%') (restOfLine t).2 = [] ∨
      (reveal (m.next '%') (restOfLine t).2).head? = some '\n' := by
    rcases restOfLine_end t with hr | ⟨u, hr⟩
    · rw [hr]
      exact .inl rfl
    · rw [hr, reveal_cons (by simp [State.code, hcomment.comment]) hcomment.continuation (by decide)]
      exact .inr rfl
  have ht := (hm.passes_comment hs).reveal
  rw [List.cons_append, restOfLine_append] at ht
  refine ⟨m.next '%', _, ⟨hcomment.string, hcomment.continuation, fun _ => hend⟩, ?_, h.pass rfl⟩
  have hstep := Step.comment (s := s') (t := (restOfLine t).1 ++ reveal (m.next '%') (restOfLine t).2)
  rw [restOfLine_of_break hline hrest] at hstep
  rw [ht]
  exact .single hstep

theorem Step.revealed_token (h : Twin s s') (hs : Step s (l.spelling ++ rest) s₁ rest)
    (hm : m.continuation = false) (hsent : sentinel ∉ rest)
    (hlast : startsContinuation rest = true → l.spelling.getLast? ≠ some '.')
    (hb : ∀ c, l.spelling = [c] → c = '+' ∨ c = '-' → startsContinuation rest = true → s.loose = false) :
    ∃ s₁', Run s' (l.spelling ++ reveal m rest) s₁' (reveal m rest) ∧ Twin s₁ s₁' := by
  rcases reveal_cases hm hsent with heq | ⟨p, r, r', rfl, hr, hp⟩
  · rw [heq]
    obtain ⟨s₁', hs', h'⟩ := h.step hs
    exact ⟨s₁', .single hs', h'⟩
  · rw [hr]
    have hdots : (l.spelling ++ p).getLast? ≠ some '.' := by
      cases hpl : p.getLast? with
      | none =>
        obtain rfl := List.getLast?_eq_none_iff.1 hpl
        simpa using hlast rfl
      | some x => simpa [List.getLast?_append, hpl] using hp
    have hs := hs.cut (.continued hdots) (.blank (r := r')) fun c hc hnil hsign => by
      have hloose := hb c hc hsign (by rw [hnil]; rfl)
      rw [Scan.separated_of_loose hloose, Scan.separated_of_loose hloose]
    obtain ⟨s₁', hs', h'⟩ := h.step hs
    exact ⟨s₁', .single hs', h'⟩

/-- A turn of the scan on a script is a turn, or one for each blank, on what masking makes of the script. -/
theorem Step.revealed (h : Twin s s') (hs : Step s t s₁ t₁) (hm : Between m t) (hsent : sentinel ∉ t)
    (hk : ∀ x ∈ s₁.tokens, x.kind ≠ .transpose)
    (hb : ∀ c, t = c :: t₁ → c = '+' ∨ c = '-' → startsContinuation t₁ = true → s.loose = false) :
    ∃ m' s₁', Between m' t₁ ∧ Run s' (reveal m t) s₁' (reveal m' t₁) ∧ Twin s₁ s₁' := by
  have hstep := hs
  cases hs with
  | @blank c t hc =>
    have hn : c ≠ '\n' := by
      rintro rfl
      cases hc
    obtain ⟨s₁', hr, h'⟩ := Step.revealed_blank h (hm.plain hn) hc
    exact ⟨m, s₁', (hm.plain hn).between _, hr, h'⟩
  | @continued c t hc =>
    have hn : c ≠ '\n' := by
      rintro rfl
      exact absurd hc (by simp [startsContinuation])
    obtain ⟨m', s₁', hm', hr, h'⟩ := Step.revealed_continuation h (hm.plain hn) hc
    exact ⟨m', s₁', hm'.between _, hr, h'⟩
  | comment => exact Step.revealed_comment h (hm.plain (by decide)) fun hmem => hsent (List.mem_cons_of_mem _ hmem)
  | @token _ c t l hat hl ht =>
    have happ := (lexeme_append hl).1
    have hkind : l.kind ≠ .transpose := by
      intro hkind
      obtain ⟨gs, -, rfl⟩ := Scan.take_eq_ok.1 ht
      refine hk _ List.mem_cons_self ?_
      rw [hkind]
      rfl
    obtain ⟨⟨m', hm'⟩, hlast⟩ := lexeme_masked hm hsent hat hl hkind
    have ht := hm'.reveal
    rw [happ] at ht
    rw [← happ] at hstep hsent
    obtain ⟨s₁', hr, h'⟩ := Step.revealed_token h hstep hm'.plain.continuation
      (fun hmem => hsent (List.mem_append_right _ hmem)) hlast fun d hd => hb d (by rw [← happ, hd]; rfl)
    exact ⟨m', s₁', hm'.plain.between _, ht ▸ hr, h'⟩

/-- No sign that is set off from an operand in brackets stands directly in front of a continuation. The dots
would count as the operand of the sign, and blanks in their place do not. -/
def SignsApart (script : Text) : Prop :=
  ∀ s c t, Run .start script s (c :: t) → c = '+' ∨ c = '-' → startsContinuation t = true → s.loose = false

theorem Run.revealed (hr : Run s t s₁ t₁) (h : Twin s s') (hm : Between m t) (hsent : sentinel ∉ t)
    (hk : ∀ x ∈ s₁.tokens, x.kind ≠ .transpose)
    (hb : ∀ s₂ c t₂, Run s t s₂ (c :: t₂) → c = '+' ∨ c = '-' → startsContinuation t₂ = true → s₂.loose = false) :
    ∃ m' s₁', Between m' t₁ ∧ Run s' (reveal m t) s₁' (reveal m' t₁) ∧ Twin s₁ s₁' := by
  induction hr generalizing s' m with
  | nil => exact ⟨m, s', hm, .nil, h⟩
  | @cons s s₂ s₁ t t₂ t₁ hs hr ih =>
    obtain ⟨u, _, -, hu⟩ := hs.advance
    obtain ⟨v, new, hv⟩ := hr.advance
    have hk₂ : ∀ x ∈ s₂.tokens, x.kind ≠ .transpose := fun x hx =>
      hk x (hv.tokens ▸ List.mem_append_right new hx)
    have hsent₂ : sentinel ∉ t₂ := fun hmem => hsent (hu.text ▸ List.mem_append_right u hmem)
    have hb₂ : ∀ c, t = c :: t₂ → c = '+' ∨ c = '-' → startsContinuation t₂ = true → s.loose = false := by
      rintro c rfl
      exact hb s c t₂ .nil
    obtain ⟨m₂, s₂', hm₂, hr₂, h₂⟩ := Step.revealed h hs hm hsent hk₂ hb₂
    obtain ⟨m₁, s₁', hm₁, hr₁, h₁⟩ := ih h₂ hm₂ hsent₂ hk fun s₃ c t₃ hr₃ => hb s₃ c t₃ (.cons hs hr₃)
    exact ⟨m₁, s₁', hm₁, hr₂.trans hr₁, h₁⟩

/-- A script without transposes has the same tokens in the same places when it is masked and unmasked, if no sign
depends on the continuation behind it. -/
theorem tokenize_revealed {script : Text} {toks : List Token} (h : tokenize script = .ok toks)
    (hsent : sentinel ∉ script) (hk : ∀ x ∈ toks, x.kind ≠ .transpose) (hb : SignsApart script) :
    ∃ toks', tokenize (unmask (sanitize script)) = .ok toks' ∧ places toks' = places toks := by
  obtain ⟨last, hr, hg, rfl⟩ := scan_eq_ok.1 h
  obtain ⟨m', last', -, hr', h'⟩ := Run.revealed hr (Twin.refl .start) (plain_start.between script) hsent
    (fun x hx => hk x (List.mem_reverse.2 hx)) hb
  refine ⟨last'.tokens.reverse, scan_eq_ok.2 ⟨last', hr', h'.groups ▸ hg, rfl⟩, ?_⟩
  rw [places, places, List.map_reverse, List.map_reverse]
  exact congrArg List.reverse h'.tokens.symm

theorem kinds_of_places {ts us : List Token} (h : places us = places ts) : kinds us = kinds ts := by
  have hfst := congrArg (List.map Prod.fst) h
  rw [places, places, List.map_map, List.map_map] at hfst
  exact hfst

/-- In this way masking keeps what a script means to the tokens. -/
theorem kinds_unmask_sanitize {script : Text} {toks : List Token} (h : tokenize script = .ok toks)
    (hsent : sentinel ∉ script) (hk : ∀ x ∈ toks, x.kind ≠ .transpose) (hb : SignsApart script) :
    ∃ toks', tokenize (unmask (sanitize script)) = .ok toks' ∧ kinds toks' = kinds toks := by
  obtain ⟨toks', htoks', hplaces⟩ := tokenize_revealed h hsent hk hb
  exact ⟨toks', htoks', kinds_of_places hplaces⟩

/-- A text that begins with a sign and goes on with a continuation. -/
def signContinued : Text → Bool
  | c :: t => (c = '+' || c = '-') && startsContinuation t
  | [] => false

/-- It is enough that no sign stands directly in front of dots. -/
theorem signsApart_of_tails {script : Text} (h : script.tails.any signContinued = false) : SignsApart script := by
  intro s c t hr hsign hdots
  obtain ⟨u, _, ha⟩ := hr.advance
  have hmem : c :: t ∈ script.tails := (List.mem_tails _ _).2 ⟨u, ha.text.symm⟩
  have hno := List.any_eq_false.1 h _ hmem
  simp [signContinued, hsign, hdots] at hno

/-- The continuation stands in brackets, behind an operand, and a string with a semicolon follows. -/
theorem kinds_unmask_sanitize_brackets :
    let script := "x = [a ... %\n'b;c' -a];".toList
    ∃ toks toks', tokenize script = .ok toks ∧ tokenize (unmask (sanitize script)) = .ok toks' ∧
      kinds toks' = kinds toks := by
  intro script
  have h : tokenize script = .ok [⟨.word "x".toList, 1, 0⟩, ⟨.assign, 1, 2⟩, ⟨.opening .square, 1, 4⟩,
      ⟨.word "a".toList, 1, 5⟩, ⟨.comma, 2, 13⟩, ⟨.quoted "b;c".toList, 2, 13⟩, ⟨.comma, 2, 19⟩, ⟨.minus, 2, 19⟩,
      ⟨.word "a".toList, 2, 20⟩, ⟨.closing .square, 2, 21⟩, ⟨.semicolon, 2, 22⟩] := by
    with_unfolding_all rfl
  obtain ⟨toks', h'⟩ := kinds_unmask_sanitize h (by decide) (by simp) (signsApart_of_tails (by decide))
  exact ⟨_, toks', h, h'⟩

/-- A sign in front of a continuation begins an element, and in front of the blanks in its place it does not. -/
theorem kinds_unmask_sanitize_sign :
    let script := "[a -...\nb]".toList
    sentinel ∉ script ∧ ∃ toks toks', tokenize script = .ok toks ∧ (∀ x ∈ toks, x.kind ≠ .transpose) ∧
      tokenize (unmask (sanitize script)) = .ok toks' ∧ kinds toks' ≠ kinds toks := by
  intro script
  have h : tokenize script = .ok [⟨.opening .square, 1, 0⟩, ⟨.word "a".toList, 1, 1⟩, ⟨.comma, 1, 3⟩, ⟨.minus, 1, 3⟩,
      ⟨.word "b".toList, 2, 8⟩, ⟨.closing .square, 2, 9⟩] := by
    with_unfolding_all rfl
  have h' : tokenize (unmask (sanitize script)) = .ok [⟨.opening .square, 1, 0⟩, ⟨.word "a".toList, 1, 1⟩,
      ⟨.minus, 1, 3⟩, ⟨.word "b".toList, 1, 8⟩, ⟨.closing .square, 1, 9⟩] := by
    with_unfolding_all rfl
  exact ⟨by decide, _, _, h, by simp, h', by simp [kinds]⟩

end Edit

end ConfigScript
