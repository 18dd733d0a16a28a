import ConfigScript.Proofs.Scanning
/-!
# The lines of tokens

The tokens of a script stand in it one behind the other, with blanks, continuations and comments between them, and
the line of each is told by the line breaks in front of its first character (`tokenize_stand`). A scan that fails
does so on the line that it has come to (`tokenize_error`).
-/

namespace ConfigScript

/-- A line of the script, counted from one. -/
def IsLine (source : Text) (n : Nat) : Prop := 1 ≤ n ∧ n ≤ 1 + source.lineBreaks

namespace Token

variable {s s₁ : Scan} {source before t t₁ u : Text} {c : Char} {l : Lexeme} {toks : List Token} {x : Token}
  {e : SyntaxError}

theorem isLine_of_append (h : source = before ++ t) : IsLine source (1 + before.lineBreaks) := by
  rw [h, IsLine, Text.lineBreaks_append]
  omega

/-! ## Where tokens stand -/

/-- What stands between lexemes, in front of this text: a blank, a continuation or a comment. -/
inductive Skipped : Text → Text → Prop
  | blank {c : Char} {t : Text} : isSpace c = true → Skipped [c] t
  | continued {c : Char} {t : Text} :
    startsContinuation (c :: t) = true → Skipped (c :: (continuation t).1) (continuation t).2
  | comment {t : Text} : Skipped ('%' :: (restOfLine t).1) (restOfLine t).2

/-- A token that starts behind this text. -/
def behind (before : Text) (kind : TokenKind) : Token := ⟨kind, 1 + before.lineBreaks, before.byteLength⟩

/-- The kind under which a lexeme counts: its own, or that of a semicolon for a line break. -/
def CountsAs (kind own : TokenKind) : Prop := kind = own ∨ own = .newline ∧ kind = .semicolon

/-- These are the tokens of a text that stands behind another one. A lexeme has its token where it starts, and where
it starts an element there may be a comma too. -/
inductive Stand : Text → Text → List Token → Prop
  | done {before : Text} : Stand before [] []
  | skipped {before u t : Text} {toks : List Token} :
    Skipped u t → Stand (before ++ u) t toks → Stand before (u ++ t) toks
  | lexeme {before t : Text} {c : Char} {transposes : Bool} {l : Lexeme} {kind : TokenKind} {toks : List Token} :
    AtLexeme c t → lexeme transposes c t = .ok l → CountsAs kind l.kind → Stand (before ++ l.spelling) l.rest toks →
    Stand before (c :: t) (behind before kind :: toks)
  | element {before t : Text} {c : Char} {transposes : Bool} {l : Lexeme} {kind : TokenKind} {toks : List Token} :
    AtLexeme c t → lexeme transposes c t = .ok l → CountsAs kind l.kind → Stand (before ++ l.spelling) l.rest toks →
    startsElement c t.head? = true → Stand before (c :: t) (behind before .comma :: behind before kind :: toks)

/-- A token starts at a character of a text that stands behind another one. -/
def StandsIn (before t : Text) (x : Token) : Prop :=
  ∃ front c back, t = front ++ c :: back ∧ x = behind (before ++ front) x.kind

theorem standsIn_here (before : Text) (c : Char) (t : Text) (kind : TokenKind) :
    StandsIn before (c :: t) (behind before kind) := ⟨[], c, t, rfl, by rw [List.append_nil]; rfl⟩

theorem StandsIn.pass (h : StandsIn (before ++ u) t x) : StandsIn before (u ++ t) x := by
  obtain ⟨front, c, back, rfl, hx⟩ := h
  exact ⟨u ++ front, c, back, (List.append_assoc _ _ _).symm, by rwa [← List.append_assoc]⟩

/-- Every token of a text starts in it. -/
theorem Stand.standsIn (h : Stand before t toks) : ∀ x ∈ toks, StandsIn before t x := by
  induction h with
  | done => exact fun _ hx => absurd hx List.not_mem_nil
  | skipped _ _ ih => exact fun x hx => (ih x hx).pass
  | lexeme _ hl _ _ ih =>
    refine List.forall_mem_cons.2 ⟨standsIn_here _ _ _ _, fun x hx => ?_⟩
    exact (lexeme_append hl).1 ▸ (ih x hx).pass
  | element _ hl _ _ _ ih =>
    refine List.forall_mem_cons.2 ⟨standsIn_here _ _ _ _, List.forall_mem_cons.2 ⟨standsIn_here _ _ _ _, fun x hx => ?_⟩⟩
    exact (lexeme_append hl).1 ▸ (ih x hx).pass

theorem Stand.isLine (h : Stand [] source toks) (hx : x ∈ toks) : IsLine source x.line := by
  obtain ⟨front, c, back, hsource, hbehind⟩ := h.standsIn x hx
  rw [hbehind]
  exact isLine_of_append hsource

/-! ## Where the scan is -/

/-- The scan has come to the end of this text. -/
structure Scan.At (s : Scan) (before : Text) : Prop where
  line : s.line = 1 + before.lineBreaks
  offset : s.offset = before.byteLength

theorem Scan.at_start : Scan.start.At [] := ⟨rfl, rfl⟩

theorem Scan.At.pass (h : s.At before) (u : Text) : (s.pass u).At (before ++ u) where
  line := by rw [Text.lineBreaks_append, ← Nat.add_assoc, ← h.line, Scan.pass]
  offset := by rw [Text.byteLength_append, ← h.offset, Scan.pass]

theorem Scan.countsAs_settledKind (s : Scan) (kind : TokenKind) : CountsAs (s.settledKind kind) kind := by
  unfold Scan.settledKind
  split
  · next h =>
    simp only [Bool.and_eq_true] at h
    refine .inr ⟨?_, rfl⟩
    cases kind <;> first | rfl | cases h.1
  · exact .inl rfl

/-- What a step has passed and added lies where the scan is. -/
theorem Step.stand (h : Step s t s₁ t₁) (hs : s.At before) : ∃ u new, s₁.At (before ++ u) ∧
    s₁.tokens = new.reverse ++ s.tokens ∧
    ∀ toks, Stand (before ++ u) t₁ toks → Stand before t (new ++ toks) := by
  cases h with
  | blank hc => exact ⟨_, [], ⟨(hs.pass _).line, (hs.pass _).offset⟩, rfl, fun _ => .skipped (.blank hc)⟩
  | @continued c t hc =>
    refine ⟨_, [], ⟨(hs.pass _).line, (hs.pass _).offset⟩, rfl, fun toks htoks => ?_⟩
    have h := Stand.skipped (.continued hc) htoks
    rwa [List.cons_append, continuation_append] at h
  | @comment t =>
    refine ⟨_, [], hs.pass _, rfl, fun toks htoks => ?_⟩
    have h := Stand.skipped .comment htoks
    rwa [List.cons_append, restOfLine_append] at h
  | @token _ c t l hat hl ht =>
    obtain ⟨gs, -, rfl⟩ := Scan.take_eq_ok.1 ht
    have hkind := (s.separated c t.head?).countsAs_settledKind l.kind
    have hat' := hs.pass l.spelling
    have hhere : ∀ kind, (⟨kind, s.line, s.offset⟩ : Token) = behind before kind := fun kind => by
      rw [hs.line, hs.offset, behind]
    unfold Scan.separated at hl hkind ⊢
    split at hl
    · next hsep =>
      rw [if_pos hsep] at hkind ⊢
      simp only [Bool.and_eq_true] at hsep
      refine ⟨l.spelling, [behind before .comma, behind before _], ⟨hat'.line, hat'.offset⟩, ?_,
        fun toks htoks => .element hat hl hkind htoks hsep.2⟩
      rw [← hhere, ← hhere]
      rfl
    · next hsep =>
      rw [if_neg hsep] at hkind ⊢
      refine ⟨l.spelling, [behind before _], ⟨hat'.line, hat'.offset⟩, ?_, fun toks htoks => .lexeme hat hl hkind htoks⟩
      rw [← hhere]
      rfl

theorem Run.stand (h : Run s t s₁ []) (hs : s.At before) :
    ∃ new, s₁.tokens = new.reverse ++ s.tokens ∧ Stand before t new := by
  generalize hend : ([] : Text) = last at h
  induction h generalizing before with
  | nil =>
    subst hend
    exact ⟨[], rfl, .done⟩
  | cons hstep _ ih =>
    obtain ⟨u, new, hs₁, htokens, hstand⟩ := hstep.stand hs
    obtain ⟨more, htokens', hmore⟩ := ih hs₁ hend
    refine ⟨new ++ more, ?_, hstand more hmore⟩
    rw [htokens', htokens, List.reverse_append, List.append_assoc]

/-- The tokens of a script stand in it, each on the line that it starts on. -/
theorem tokenize_stand (h : tokenize source = .ok toks) : Stand [] source toks := by
  obtain ⟨last, hr, -, rfl⟩ := scan_eq_ok.1 h
  obtain ⟨new, htokens, hstand⟩ := hr.stand Scan.at_start
  have hnew : last.tokens.reverse = new := by
    rw [htokens]
    exact (congrArg List.reverse (List.append_nil _)).trans (List.reverse_reverse new)
  exact hnew ▸ hstand

/-- A script that cannot be scanned fails on the line behind what could be. -/
theorem tokenize_error (h : tokenize source = .error e) :
    ∃ before after, source = before ++ after ∧ e.line = 1 + before.lineBreaks := by
  obtain ⟨s₁, after, hr, hline⟩ := run_of_error h
  obtain ⟨before, new, hadvance⟩ := hr.advance
  exact ⟨before, after, hadvance.text, hline.trans hadvance.line⟩

end Token

end ConfigScript
