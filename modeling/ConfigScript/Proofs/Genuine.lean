import ConfigScript.Proofs.MaskStates
import ConfigScript.Proofs.Occurrences
/-!
# Occurrences and tokens

Masking follows the tokens without reading them. On a line it knows, at every turn of the scan, whether a
string or a comment is open, until a transpose stands there: the mask takes its apostrophe for the
beginning of a string (`Step.inStep`, `Reached.run`). An occurrence starts in one turn of the scan
(`Run.turn`), and so it is a name that is read as a token, or it stands in a string, or in a comment or a
continuation behind a transpose (`find_token_or_string`).
-/

namespace ConfigScript

namespace Token

variable {s s₁ : Scan} {t t₁ u v script : Text} {c a : Char} {l : Lexeme} {transposes : Bool}

/-! ## Lexemes -/

/-- A string ends with its delimiter, on its line. -/
theorem spelling_of_stringBody {delimiter : Char} (hd : delimiter ≠ '\n') {content spelling rest : Text}
    (h : stringBody delimiter t = some (content, spelling, rest)) :
    spelling.getLast? = some delimiter ∧ '\n' ∉ spelling := by
  fun_induction stringBody delimiter t generalizing content spelling rest with
  | case1 => cases h
  | case2 =>
    cases h
    simpa using hd.symm
  | case3 => cases h
  | case4 t ih =>
    obtain ⟨⟨a, b, r⟩, hr, he⟩ := Option.map_eq_some_iff.1 h
    cases he
    simp [ih hr, hd.symm, List.getLast?_cons]
  | case5 d t hne =>
    cases h
    simpa using hd.symm
  | case6 => cases h
  | case7 c d t hne hbreak ih =>
    obtain ⟨⟨a, b, r⟩, hr, he⟩ := Option.map_eq_some_iff.1 h
    cases he
    simp [ih hr, Ne.symm hbreak, List.getLast?_cons]

/-- How a lexeme is spelled, one case for each way to begin. -/
inductive Lexed (transposes : Bool) (c : Char) (t : Text) : Lexeme → Prop
  | numeral : (c.isDigit || (c = '.' && t.head?.any Char.isDigit)) = true → Lexed transposes c t (numeral (c :: t))
  | name : c.isAlpha = true → Lexed transposes c t (name (c :: t))
  | transpose : c = '\x27' → transposes = true → Lexed transposes c t ⟨.transpose, [c], t⟩
  | string {content spelling rest : Text} : c = '\x27' ∨ c = '"' →
      stringBody c t = some (content, spelling, rest) → Lexed transposes c t ⟨.quoted content, c :: spelling, rest⟩
  | pair {d : Char} {u : Text} {kind : TokenKind} : c.isAlpha = false → t = d :: u →
      operator? c (some d) = some (kind, true) → Lexed transposes c t ⟨kind, [c, d], u⟩
  | single {kind : TokenKind} : c.isAlpha = false → operator? c t.head? = some (kind, false) →
      Lexed transposes c t ⟨kind, [c], t⟩

theorem lexed_of_lexeme (h : lexeme transposes c t = .ok l) : Lexed transposes c t l := by
  unfold lexeme at h
  split at h
  · next hd =>
    cases h
    exact .numeral hd
  split at h
  · next ha =>
    cases h
    exact .name ha
  next ha =>
  split at h
  · next ht =>
    cases h
    simp only [Bool.and_eq_true, decide_eq_true_eq] at ht
    exact .transpose ht.1 ht.2
  split at h
  · next hq =>
    unfold string at h
    split at h
    · next hb =>
      cases h
      exact .string (by simpa using hq) hb
    · cases h
  have ha : c.isAlpha = false := by simpa using ha
  split at h
  · next ho =>
    cases h
    cases t with
    | nil => exact (operator?_none c ho).elim
    | cons d u => exact .pair ha rfl ho
  · next ho =>
    cases h
    exact .single ha ho
  · cases h

/-- The second character of an operator. -/
theorem second_of_operator {d : Char} {kind : TokenKind} (h : operator? c (some d) = some (kind, true)) :
    d ∈ ['*', '/', '^', '\x27', '=', '&', '|'] := by
  by_contra hd
  have hne : d ≠ '*' ∧ d ≠ '/' ∧ d ≠ '^' ∧ d ≠ '\x27' ∧ d ≠ '=' ∧ d ≠ '&' ∧ d ≠ '|' := by simpa using hd
  rw [operator?_some hne] at h
  exact operator?_none c h

theorem operator_of_transpose {next : Option Char} {two : Bool} (h : operator? c next = some (.transpose, two)) :
    c = '.' ∧ next = some '\x27' ∧ two = true := by
  unfold operator? at h
  split at h
  all_goals first
    | cases h; done
    | (cases h; exact ⟨rfl, rfl, rfl⟩)

/-- A transpose is an apostrophe, perhaps behind a point. -/
theorem spelling_of_transpose (h : Lexed transposes c t l) (hk : l.kind = .transpose) :
    l.spelling = ['\x27'] ∨ l.spelling = ['.', '\x27'] := by
  cases h with
  | numeral => cases hk
  | name => cases hk
  | transpose hc => exact .inl (congrArg (fun c => [c]) hc)
  | string => cases hk
  | pair _ _ ho =>
    obtain rfl := hk
    obtain ⟨rfl, hd, -⟩ := operator_of_transpose ho
    obtain rfl := Option.some.inj hd
    exact .inr rfl
  | single _ ho =>
    obtain rfl := hk
    obtain ⟨-, -, htwo⟩ := operator_of_transpose ho
    cases htwo

/-- Only the end of a line holds a line break. -/
theorem spelling_of_break (h : Lexed transposes c t l) (hn : '\n' ∈ l.spelling) : l.spelling = ['\n'] := by
  cases h with
  | numeral =>
    rcases Edit.numeral_marks _ _ hn with hd | hm
    · cases hd
    · exact absurd hm (by decide)
  | name => exact absurd (List.mem_takeWhile_imp hn) (by decide)
  | transpose hc =>
    obtain rfl : '\n' = c := List.mem_singleton.1 hn
    cases hc
  | string hc hb =>
    have hne : c ≠ '\n' := by
      rintro rfl
      rcases hc with hc | hc <;> cases hc
    rcases List.mem_cons.1 hn with heq | hmem
    · exact (hne heq.symm).elim
    · exact ((spelling_of_stringBody hne hb).2 hmem).elim
  | pair _ _ ho =>
    have hd := second_of_operator ho
    simp only [List.mem_cons, List.not_mem_nil, or_false] at hn
    rcases hn with rfl | rfl
    · cases ho
    · exact absurd hd (by decide)
  | single => rw [← List.mem_singleton.1 hn]

theorem not_isAlpha_of_scaled {e : Char} (h : (exponentPart t).2.1 = e :: u) : ∀ c ∈ u, c.isAlpha = false := by
  cases t with
  | nil => cases h
  | cons d t =>
    simp only [exponentPart] at h
    split at h
    · obtain ⟨rfl, rfl⟩ := List.cons.inj h
      intro c hc
      rcases List.mem_append.1 hc with hc | hc
      · unfold exponentSign at hc
        split at hc
        · rw [List.mem_singleton.1 hc]
          rfl
        · rw [List.mem_singleton.1 hc]
          rfl
        · cases hc
      · exact Bool.eq_false_iff.2 fun ha => by
          have hd := List.mem_takeWhile_imp hc
          rw [not_isDigit_of_isAlpha ha] at hd
          cases hd
    · cases h

/-- In front of the letter of a numeral is a digit or the point. -/
theorem front_of_numeral (hs : (numeral t).spelling = u ++ a :: v) (ha : a.isAlpha = true) :
    ∀ x ∈ u.getLast?, x.isDigit = true ∨ x = '.' := by
  have hmarks := digit_or_point t
  simp only [numeral] at hs
  have hno : a ∉ t.takeWhile Char.isDigit ++ (fractionPart (t.dropWhile Char.isDigit)).2.1 := by
    intro hmem
    rcases hmarks a hmem with hd | rfl
    · rw [not_isDigit_of_isAlpha ha] at hd
      cases hd
    · cases ha
  have hfront : u = t.takeWhile Char.isDigit ++ (fractionPart (t.dropWhile Char.isDigit)).2.1 := by
    rcases List.append_eq_append_iff.1 hs with ⟨w, rfl, hw⟩ | ⟨w, hu, hw⟩
    · cases w with
      | nil => simp
      | cons e w =>
        have halpha := not_isAlpha_of_scaled hw a (by simp)
        rw [ha] at halpha
        cases halpha
    · cases w with
      | nil => simpa using hu.symm
      | cons e w =>
        obtain ⟨rfl, -⟩ := List.cons.inj hw
        exact (hno (by rw [hu]; simp)).elim
  intro x hx
  exact hmarks x (hfront ▸ List.mem_of_getLast? hx)

/-- Where nothing goes on with a name, a letter in a lexeme is in a string, or it is the first of a name. -/
theorem lexed_letter (h : Lexed transposes c t l) (hs : l.spelling = u ++ a :: v) (ha : a.isAlpha = true)
    (ho : Edit.Opens u.getLast?) : (u = [] ∧ l = name (c :: t)) ∨ ∃ content, l.kind = .quoted content ∧ u ≠ [] := by
  cases h with
  | numeral hd =>
    cases hu : u.getLast? with
    | none =>
      obtain rfl := List.getLast?_eq_none_iff.1 hu
      have happ := numeral_append (c :: t)
      rw [hs] at happ
      obtain ⟨rfl, -⟩ := List.cons.inj happ
      rw [not_isDigit_of_isAlpha ha] at hd
      simp only [Bool.false_or, Bool.and_eq_true, decide_eq_true_eq] at hd
      rw [hd.1] at ha
      cases ha
    | some x =>
      obtain ⟨hpart, hpoint⟩ := ho x hu
      rcases front_of_numeral hs ha x hu with hd | rfl
      · simp [isNamePart, Char.isAlphanum, hd] at hpart
      · exact (hpoint rfl).elim
  | name =>
    cases hu : u.getLast? with
    | none => exact .inl ⟨List.getLast?_eq_none_iff.1 hu, rfl⟩
    | some x =>
      have hmem : x ∈ (c :: t).takeWhile isNamePart := by
        have hs : (c :: t).takeWhile isNamePart = u ++ a :: v := hs
        rw [hs]
        exact List.mem_append_left _ (List.mem_of_getLast? hu)
      have hpart := (ho x hu).1
      rw [List.mem_takeWhile_imp hmem] at hpart
      cases hpart
  | transpose hc =>
    have hmem : a ∈ [c] := by
      rw [show [c] = u ++ a :: v from hs]
      simp
    rw [List.mem_singleton.1 hmem, hc] at ha
    cases ha
  | string hc hb =>
    refine .inr ⟨_, rfl, ?_⟩
    rintro rfl
    obtain ⟨rfl, -⟩ := List.cons.inj hs
    rcases hc with rfl | rfl <;> cases ha
  | @pair d w kind hc _ hop =>
    have hmem : a ∈ [c, d] := by
      rw [show [c, d] = u ++ a :: v from hs]
      simp
    have hd := second_of_operator hop
    simp only [List.mem_cons, List.not_mem_nil, or_false] at hmem hd
    rcases hmem with rfl | rfl
    · rw [hc] at ha
      cases ha
    · rcases hd with rfl | rfl | rfl | rfl | rfl | rfl | rfl <;> cases ha
  | single hc =>
    have hmem : a ∈ [c] := by
      rw [show [c] = u ++ a :: v from hs]
      simp
    rw [List.mem_singleton.1 hmem, hc] at ha
    cases ha

/-! ## Turns -/

/-- Every character of a text is passed in one turn of the scan. -/
theorem Run.turn {front back : Text} (hr : Run s t s₁ []) (ht : t = front ++ c :: back) :
    ∃ s₂ u v s₃ t₃, Run s t s₂ (u ++ c :: (v ++ t₃)) ∧ Step s₂ (u ++ c :: (v ++ t₃)) s₃ t₃ ∧ Run s₃ t₃ s₁ [] ∧
      u <:+ front ∧ back = v ++ t₃ := by
  generalize hnil : ([] : Text) = last at hr
  induction hr generalizing front with
  | nil =>
    subst hnil
    cases front <;> cases ht
  | @cons s s₂ s₁ t t₂ last hs hr ih =>
    subst hnil
    obtain ⟨w, _, hw, ha⟩ := hs.advance
    rcases List.append_eq_append_iff.1 (ha.text.symm.trans ht) with ⟨x, hfront, hrest⟩ | ⟨x, hx, hrest⟩
    · obtain ⟨s₃, u, v, s₄, t₄, hr₁, hstep, hr₂, hu, hv⟩ := ih hrest rfl
      exact ⟨s₃, u, v, s₄, t₄, .cons hs hr₁, hstep, hr₂, hu.trans ⟨w, hfront.symm⟩, hv⟩
    · cases x with
      | nil =>
        obtain ⟨s₃, u, v, s₄, t₄, hr₁, hstep, hr₂, hu, hv⟩ := @ih [] (by simpa using hrest.symm) rfl
        obtain rfl := List.suffix_nil.1 hu
        exact ⟨s₃, [], v, s₄, t₄, .cons hs hr₁, hstep, hr₂, List.nil_suffix, hv⟩
      | cons d x =>
        obtain ⟨rfl, rfl⟩ := List.cons.inj hrest
        exact ⟨s, front, x, s₂, t₂, ht ▸ .nil, ht ▸ hs, hr, List.suffix_refl _, rfl⟩

/-- A transpose was read on this line. -/
def Scan.Transposed (s : Scan) : Prop :=
  ∃ x ∈ s.tokens, x.kind = .transpose ∧ x.line = s.line ∧ x.offset < s.offset

theorem Scan.Transposed.step (h : s.Transposed) (hs : Step s (u ++ t₁) s₁ t₁) (hn : '\n' ∉ u) : s₁.Transposed := by
  obtain ⟨w, new, -, ha⟩ := hs.advance
  obtain rfl : u = w := List.append_cancel_right ha.text
  obtain ⟨x, hx, hk, hline, hoffset⟩ := h
  refine ⟨x, ha.tokens ▸ List.mem_append_right new hx, hk, ?_, ?_⟩
  · rw [ha.line, hline, Text.lineBreaks, List.count_eq_zero.2 hn, Nat.add_zero]
  · rw [ha.offset]
    exact Nat.lt_add_right _ hoffset

/-! ## Where the scan reads a byte -/

/-- A turn of the scan of a script begins in front of a byte and goes over it. -/
structure Over (script : Text) (o : Nat) (s : Scan) (t : Text) (s₁ : Scan) (t₁ : Text) : Prop where
  reached : Run .start script s t
  step : Step s t s₁ t₁
  begins : s.offset < o
  ends : o < s₁.offset

/-- The byte is inside a string literal. -/
def InString (script : Text) (o : Nat) : Prop :=
  ∃ s t s₁ t₁ content, Over script o s t s₁ t₁ ∧ s₁.tokens.head? = some ⟨.quoted content, s.line, s.offset⟩

/-- The byte is inside a comment. -/
def InComment (script : Text) (o : Nat) : Prop := ∃ s t s₁ t₁, Over script o s ('%' :: t) s₁ t₁

/-- The byte is inside a continuation. -/
def InContinuation (script : Text) (o : Nat) : Prop :=
  ∃ s t s₁ t₁, Over script o s ('.' :: '.' :: '.' :: t) s₁ t₁

end Token

namespace Edit

open Token Mask

variable {m : State} {s s₁ : Scan} {t t₁ u script : Text} {c : Char} {l : Lexeme} {transposes : Bool}

/-! ## The mask in step with the scan -/

/-- Up to the end of the script the mask is between lexemes where the scan is, unless a transpose was read on
the line. -/
def InStep (m : State) (s : Scan) (t : Text) : Prop := t = [] ∨ s.Transposed ∨ Between m t

theorem inStep_break (m : State) (s : Scan) (u t : Text) : InStep (after m (u ++ ['\n'])) s t :=
  .inr (.inr ((plain_after_break m u).between t))

/-- A step that ends no line goes on with a transpose, if there was one. -/
theorem InStep.of_step (hs : Step s (u ++ t₁) s₁ t₁) (hn : '\n' ∉ u) (h : s.Transposed ∨ Between m (u ++ t₁))
    (hb : Between m (u ++ t₁) → Between (after m u) t₁) : InStep (after m u) s₁ t₁ := by
  rcases h with h | h
  · exact .inr (.inl (h.step hs hn))
  · exact .inr (.inr (hb h))

theorem after_blank (hc : isSpace c = true) (m : State) : after m [c] = m :=
  after_quiet (quiet_singleton (t := []) (not_mem_signs hc (by decide)) (by simp [startsContinuation])) m

/-- A continuation ends with its line or with the script. -/
theorem continuation_end (t : Text) : ((continuation t).2 = [] ∧ '\n' ∉ (continuation t).1) ∨
    ∃ line, (continuation t).1 = line ++ ['\n'] ∧ '\n' ∉ line := by
  unfold continuation
  split
  · next tail rest heq => exact .inr ⟨tail, rfl, (restOfLine_eq heq).1⟩
  · next tail rest hno heq =>
    obtain ⟨hline, hend⟩ := restOfLine_eq heq
    rcases hend with rfl | hend
    · exact .inl ⟨rfl, hline⟩
    · cases rest with
      | nil => cases hend
      | cons c rest =>
        obtain rfl : c = '\n' := by simpa using hend
        exact (hno rest rfl).elim

/-- A lexeme that does not transpose leads the mask from code to code. -/
theorem plain_after_lexeme (hm : Between m (c :: t)) (hat : AtLexeme c t) (h : lexeme transposes c t = .ok l)
    (hk : l.kind ≠ .transpose) : Plain (after m l.spelling) ∧ Parted l.spelling l.rest := by
  rcases lexeme_cases hat h hk with ⟨hq, -⟩ | ⟨hc, hstring⟩ | ⟨hc, -, hl⟩
  · rw [after_quiet hq]
    refine ⟨hm.plain ?_, hq.parted⟩
    rintro rfl
    obtain ⟨happ, hne⟩ := lexeme_append h
    cases hspell : l.spelling with
    | nil => exact hne hspell
    | cons d u =>
      rw [hspell] at happ
      obtain ⟨rfl, -⟩ := List.cons.inj happ
      exact hq.marks '\n' (hspell ▸ List.mem_cons_self) (by decide)
  · have hplain : Plain m := hm.plain (by rintro rfl; rcases hc with hc | hc <;> cases hc)
    unfold string at hstring
    split at hstring
    · next content spelling rest hb =>
      cases hstring
      rw [hplain.after_string hc hb]
      refine ⟨hplain, parted_of_ends (.inl ?_)⟩
      have hne : c ≠ '\n' ∧ c ≠ '.' := by
        constructor <;> (rintro rfl; rcases hc with hc | hc <;> cases hc)
      simp [List.getLast?_cons, (spelling_of_stringBody hne.1 hb).1, hne.2]
    · cases hstring
  · rw [hl]
    refine ⟨?_, parted_of_ends (.inl ?_)⟩
    · rw [after_cons (by
        rintro ⟨-, hd⟩
        simp [startsContinuation] at hd)]
      exact hm.plain_next_stop hc
    · simp only [List.getLast?_singleton, ne_eq, Option.some.injEq]
      rintro rfl
      exact absurd hc (by decide)

theorem Step.inStep (hs : Step s (u ++ t₁) s₁ t₁) (h : s.Transposed ∨ Between m (u ++ t₁)) :
    Parted u t₁ ∧ InStep (after m u) s₁ t₁ := by
  have hstep := hs
  generalize ht : u ++ t₁ = t at hs
  cases hs with
  | @blank c _ hc =>
    obtain rfl : u = [c] := List.append_cancel_right ht
    have hc' : c ≠ '.' ∧ c ≠ '\n' := by
      constructor <;> (rintro rfl; cases hc)
    refine ⟨parted_of_ends (.inl (by simpa using hc'.1)), InStep.of_step hstep (by simpa using hc'.2.symm) h fun hb => ?_⟩
    rw [after_blank hc]
    exact (hb.plain hc'.2).between _
  | @continued c t hc =>
    obtain rfl := eq_cons_continuation ht
    rcases continuation_end t with ⟨hnil, -⟩ | ⟨line, hline, -⟩
    · exact ⟨parted_of_ends (.inr (by simp [hnil])), .inl hnil⟩
    · rw [hline]
      refine ⟨parted_of_ends (.inl ?_), inStep_break m _ (c :: line) _⟩
      rw [← List.cons_append, List.getLast?_concat]
      decide
  | @comment t =>
    obtain rfl := eq_cons_restOfLine ht
    obtain ⟨hline, hend⟩ := @restOfLine_eq t (restOfLine t).2 (restOfLine t).1 rfl
    have hhead : (restOfLine t).2.head? ≠ some '.' := by
      rcases hend with hnil | hbreak
      · simp [hnil]
      · simp [hbreak]
    refine ⟨parted_of_ends (.inr hhead), InStep.of_step hstep (by simp [hline]) h fun hb => ?_⟩
    have hcomment := (hb.plain (by decide)).next_percent
    rw [after_cons (by simp [startsContinuation]), after_of_comment hcomment.comment hline]
    exact ⟨hcomment.string, hcomment.continuation, fun _ => hend⟩
  | @token _ c t l hat hl htake =>
    have happ := (lexeme_append hl).1
    obtain rfl : u = l.spelling := List.append_cancel_right (ht.trans happ.symm)
    have hlexed := lexed_of_lexeme hl
    by_cases hk : l.kind = .transpose
    · -- from here on to the end of the line the mask may be anywhere
      obtain ⟨gs, -, rfl⟩ := Scan.take_eq_ok.1 htake
      have hspell : l.spelling.getLast? = some '\x27' ∧ l.spelling.lineBreaks = 0 := by
        rcases spelling_of_transpose hlexed hk with hspell | hspell <;> (rw [hspell]; decide)
      refine ⟨parted_of_ends (.inl (by simp [hspell.1])), .inr (.inl ⟨_, List.mem_cons_self, ?_, ?_, ?_⟩)⟩
      · rw [hk]
        rfl
      · show _ = _ + l.spelling.lineBreaks
        rw [hspell.2]
        rfl
      · exact Nat.lt_add_of_pos_right (Text.byteLength_pos (lexeme_append hl).2)
    · by_cases hn : '\n' ∈ l.spelling
      · have hbreak := spelling_of_break hlexed hn
        rw [hbreak]
        exact ⟨parted_of_ends (.inl (by decide)), inStep_break m _ [] _⟩
      · have hparted : Parted l.spelling l.rest :=
          (plain_after_lexeme (plain_start.between _) hat hl hk).2
        refine ⟨hparted, InStep.of_step hstep hn h fun hb => ?_⟩
        rw [happ] at hb
        exact (plain_after_lexeme hb hat hl hk).1.between _

/-- The scan has come to the rest of a script, and the mask is in step with it. -/
structure Reached (script head : Text) (s : Scan) (t : Text) : Prop where
  text : script = head ++ t
  parted : Parted head t
  offset : s.offset = head.byteLength
  line : s.line = head.lineBreaks + 1
  inStep : InStep (after .start head) s t

theorem reached_start (script : Text) : Reached script [] .start script :=
  ⟨rfl, parted_nil _, rfl, rfl, .inr (.inr (plain_start.between script))⟩

theorem Reached.run {head : Text} (h : Reached script head s t) (hr : Run s t s₁ t₁) :
    ∃ head₁, Reached script head₁ s₁ t₁ := by
  induction hr generalizing head with
  | nil => exact ⟨head, h⟩
  | @cons s s₂ s₁ t t₂ t₁ hs hr ih =>
    obtain ⟨u, _, hu, ha⟩ := hs.advance
    obtain rfl := ha.text
    have hin := h.inStep.resolve_left (by simp [hu])
    obtain ⟨hparted, hstep⟩ := Step.inStep hs hin
    refine ih ⟨by rw [h.text, List.append_assoc], h.parted.append hparted, ?_, ?_, ?_⟩
    · rw [ha.offset, h.offset, Text.byteLength_append]
    · rw [ha.line, h.line, Text.lineBreaks_append]
      omega
    · rw [after_append h.parted.left]
      exact hstep

/-! ## Occurrences -/

theorem Opens.of_hide (h : Opens (hide m u).getLast?) (hm : (after m u).continuation = false) :
    Opens u.getLast? := by
  intro x hx
  rcases getLast?_of_hide hx hm with rfl | rfl | hlast
  · decide
  · decide
  · exact h x hlast

/-- Where an occurrence starts: the script has the name there, set off on both sides, the mask is in no
continuation, and masked text shows a semicolon behind the name on its line. -/
structure Place (name front rest : Text) : Prop where
  opens : Opens front.getLast?
  closes : ∀ x ∈ rest.head?, isNamePart x = false
  continuation : (after .start front).continuation = false
  semicolon : ∃ more back, hide (after .start front) (name ++ rest) = more ++ ';' :: back ∧ '\n' ∉ more

theorem exists_place {name : Text} {o : Occurrence} (hn : isIdentifier name = true)
    (ho : o ∈ Occurrence.find (sanitize script) name) :
    ∃ front rest, script = front ++ (name ++ rest) ∧ o.start = front.byteLength ∧ Place name front rest := by
  obtain ⟨shown, _, back, hmasked, hopens, @⟨gap, body, hgap, hbody⟩, hstart, -⟩ := find_assigns hn ho
  have hparts := namePart_of_identifier hn
  obtain ⟨a, letters, rfl, ha⟩ := exists_head hn
  have hne : a ≠ ' ' ∧ a ≠ sentinel := by
    constructor <;> (rintro rfl; cases ha)
  have hcut : hide .start script = shown ++ a :: (letters ++ (gap ++ '=' :: (body ++ ';' :: back))) := by
    rw [← sanitize_eq_hide, hmasked]
    simp
  obtain ⟨front, d, v, rfl, hs⟩ := hide_eq_append_cons hcut hne.1
  obtain rfl : d = a := hs.char.resolve_right fun hsent => hne.2 hsent.2
  have hback : hide (after .start front) (d :: v) = (d :: letters) ++ (gap ++ '=' :: (body ++ ';' :: back)) := hs.back
  obtain ⟨rest, hrest, hafter⟩ := hide_eq_append hback hparts
  refine ⟨front, rest, by rw [hrest], ?_, ?_, fun x hx => ?_, hs.continuation, ?_⟩
  · rw [← byteLength_hide .start front, hs.front, hstart]
  · exact Opens.of_hide (hs.front ▸ hopens) hs.continuation
  · -- masked text goes on with a blank or the equals sign
    obtain ⟨y, more, hy, hpart⟩ : ∃ y more, gap ++ '=' :: (body ++ ';' :: back) = y :: more ∧
        y ≠ sentinel ∧ isNamePart y = false := by
      cases gap with
      | nil => exact ⟨'=', _, rfl, by decide, by decide⟩
      | cons g gap =>
        refine ⟨g, _, rfl, ?_⟩
        rcases Occurrence.isGap_iff.1 (hgap g List.mem_cons_self) with rfl | rfl <;> decide
    rw [hy] at hafter
    rcases head_of_hide hafter hs.continuation hpart.1 with hhead | hhead
    · rw [hhead] at hx
      cases hx
      exact hpart.2
    · rw [hhead] at hx
      cases hx
      rfl
  · refine ⟨d :: (letters ++ (gap ++ '=' :: body)), back, ?_, ?_⟩
    · rw [← hrest, hs.back]
      simp
    · have hletters : '\n' ∉ d :: letters := fun hmem => absurd (hparts _ hmem) (by decide)
      have hgap' : '\n' ∉ gap := fun hmem => absurd (hgap _ hmem) (by decide)
      have hbody' : '\n' ∉ body := fun hmem => (hbody _ hmem).2 rfl
      simp only [List.mem_cons, List.mem_append, not_or] at hletters ⊢
      exact ⟨hletters.1, hletters.2, hgap', by decide, hbody'⟩

variable {name head front rest v : Text} {a : Char} {o : Occurrence} {toks : List Token}

theorem Reached.over (h : Reached script head s (u ++ a :: (v ++ t₁))) (hr : Run .start script s (u ++ a :: (v ++ t₁)))
    (hs : Step s (u ++ a :: (v ++ t₁)) s₁ t₁) (hu : u ≠ []) :
    Over script (head ++ u).byteLength s (u ++ a :: (v ++ t₁)) s₁ t₁ := by
  obtain ⟨w, _, -, ha⟩ := hs.advance
  obtain rfl : u ++ a :: v = w := List.append_cancel_right (by simpa using ha.text)
  refine ⟨hr, hs, ?_, ?_⟩
  · rw [h.offset, Text.byteLength_append]
    exact Nat.lt_add_of_pos_right (Text.byteLength_pos hu)
  · rw [ha.offset, h.offset, Text.byteLength_append, Text.byteLength_append]
    exact Nat.add_lt_add_left (Nat.lt_add_of_pos_right (Text.byteLength_pos (List.cons_ne_nil a v))) _

/-- A transpose on the line of the scan is one on the line of what stands further on in it. -/
theorem Reached.transpose (h : Reached script head s (u ++ rest)) (hs : s.Transposed) (hn : '\n' ∉ u)
    (ho : o.start = (head ++ u).byteLength) :
    ∃ x ∈ s.tokens, x.kind = .transpose ∧ x.line = o.line script ∧ x.offset < o.start := by
  obtain ⟨x, hx, hk, hline, hoffset⟩ := hs
  refine ⟨x, hx, hk, ?_, ?_⟩
  · rw [hline, h.line, Occurrence.line, ho, h.text, ← List.append_assoc, Text.takeBytes_byteLength,
      Text.lineBreaks_append, Text.lineBreaks, Text.lineBreaks, List.count_eq_zero.2 hn, Nat.add_zero]
  · rw [ho, Text.byteLength_append]
    rw [h.offset] at hoffset
    exact Nat.lt_add_right _ hoffset

/-- No occurrence is in a comment that the mask reads too. -/
theorem Place.not_commenting (h : Place name (head ++ '%' :: u) rest) (hparted : Parted head ('%' :: u))
    (hm : Plain (after .start head)) (hu : '\n' ∉ u) : False := by
  have hcomment := hm.next_percent
  have hafter : after .start (head ++ '%' :: u) = (after .start head).next '%' := by
    rw [after_append hparted, after_cons (by simp [startsContinuation]), after_of_comment hcomment.comment hu]
  obtain ⟨more, back, hshown, hno⟩ := h.semicolon
  rw [hafter] at hshown
  exact hno (hcomment.break_of_hide hshown)

/-- No occurrence is in a continuation that the mask reads too. -/
theorem Place.not_continuing (h : Place name (head ++ '.' :: '.' :: '.' :: u) rest)
    (hparted : Parted head ('.' :: '.' :: '.' :: u)) (hm : Plain (after .start head)) (hu : '\n' ∉ u) : False := by
  have hafter : after .start (head ++ '.' :: '.' :: '.' :: u) = (after .start head).continued := by
    rw [after_append hparted, after_dots hm.code, after_of_comment hm.continued.comment hu]
  have hno := h.continuation
  rw [hafter] at hno
  cases hno

theorem takeWhile_word {word : Text} (hw : ∀ x ∈ word, isNamePart x = true)
    (hr : ∀ x ∈ rest.head?, isNamePart x = false) : (word ++ rest).takeWhile isNamePart = word := by
  have hstop : rest.head?.any isNamePart = false := by
    cases rest with
    | nil => rfl
    | cons x rest => exact hr x rfl
  rw [List.takeWhile_append_of_pos hw, (takeWhile_of_any hstop).1, List.append_nil]

theorem piece_eq {w : Text} (h : u ++ a :: (v ++ t₁) = t) (hw : w ++ t₁ = t) : u ++ a :: v = w := by
  have happ : u ++ a :: v ++ t₁ = w ++ t₁ := by rw [hw, ← h, List.append_assoc, List.cons_append]
  exact List.append_cancel_right happ

theorem not_mem_front_of_line {line : Text} (h : u ++ a :: v = line ++ ['\n']) (hn : '\n' ∉ line) : '\n' ∉ u := by
  have hfront : u ++ (a :: v).dropLast = line := by
    rw [← List.dropLast_append_of_ne_nil (List.cons_ne_nil a v), h, List.dropLast_concat]
  exact fun hmem => hn (hfront ▸ List.mem_append_left _ hmem)

theorem dots_of_front {w : Text} (h : u ++ a :: v = '.' :: '.' :: '.' :: w) (ha : a ≠ '.') :
    ∃ u', u = '.' :: '.' :: '.' :: u' := by
  match u with
  | [] => exact (ha (List.cons.inj h).1).elim
  | [_] => simp [ha] at h
  | [_, _] => simp [ha] at h
  | b :: c :: d :: u' =>
    simp only [List.cons_append, List.cons.injEq] at h
    obtain ⟨rfl, rfl, rfl, -⟩ := h
    exact ⟨u', rfl⟩

/-- A continuation that an occurrence stands in is behind a transpose. -/
theorem Place.continued (h : Place name (head ++ u) rest) (hr : Reached script head s (u ++ a :: (v ++ t₁)))
    (hc : startsContinuation (c :: t) = true) (hpiece : u ++ a :: v = c :: (Token.continuation t).1) (ha : a ≠ '.') :
    s.Transposed ∧ '\n' ∉ u ∧ ∃ u', u = '.' :: '.' :: '.' :: u' := by
  obtain ⟨w, hw⟩ := startsContinuation_iff.1 hc
  obtain ⟨rfl, hdots⟩ := List.cons.inj hw
  have hfront : u ++ a :: (v ++ (Token.continuation t).2) = '.' :: '.' :: '.' :: w :=
    calc u ++ a :: (v ++ (Token.continuation t).2)
      _ = '.' :: (Token.continuation t).1 ++ (Token.continuation t).2 := by
        rw [← hpiece, List.append_assoc, List.cons_append]
      _ = '.' :: '.' :: '.' :: w := by
        rw [List.cons_append, continuation_append, hw]
  obtain ⟨u, rfl⟩ := dots_of_front hfront ha
  have hline : '\n' ∉ '.' :: '.' :: '.' :: u := by
    rcases continuation_end t with ⟨-, hno⟩ | ⟨line, hline, hno⟩
    · have hno : '\n' ∉ '.' :: (Token.continuation t).1 := by simpa using hno
      rw [← hpiece] at hno
      exact fun hmem => hno (List.mem_append_left _ hmem)
    · rw [hline, ← List.cons_append] at hpiece
      exact not_mem_front_of_line hpiece (by simpa using hno)
  refine ⟨(hr.inStep.resolve_left (by simp)).resolve_right fun hb => ?_, hline, u, rfl⟩
  exact h.not_continuing hr.parted.left (hb.plain (by decide)) fun hmem => hline (by simp [hmem])

/-- A comment that an occurrence stands in is behind a transpose. -/
theorem Place.commented (h : Place name (head ++ u) rest) (hr : Reached script head s (u ++ a :: (v ++ t₁)))
    (hpiece : u ++ a :: v = '%' :: (restOfLine t).1) (ha : a ≠ '%') :
    s.Transposed ∧ '\n' ∉ u ∧ ∃ u', u = '%' :: u' := by
  obtain ⟨u, rfl⟩ : ∃ u', u = '%' :: u' := by
    cases u with
    | nil => exact (ha (List.cons.inj hpiece).1).elim
    | cons d u => exact ⟨u, by rw [(List.cons.inj hpiece).1]⟩
  have hline : '\n' ∉ '%' :: u := by
    have hno : '\n' ∉ '%' :: (restOfLine t).1 := by
      rw [List.mem_cons, not_or]
      exact ⟨by decide, (@restOfLine_eq t (restOfLine t).2 _ rfl).1⟩
    rw [← hpiece] at hno
    exact fun hmem => hno (List.mem_append_left _ hmem)
  refine ⟨(hr.inStep.resolve_left (by simp)).resolve_right fun hb => ?_, hline, u, rfl⟩
  exact h.not_commenting hr.parted.left (hb.plain (by decide)) fun hmem => hline (by simp [hmem])

/-- A lexeme that an occurrence starts in is its name or a string. -/
theorem Place.lexeme {letters : Text} (h : Place (a :: letters) (head ++ u) rest) (hn : isIdentifier (a :: letters) = true)
    (ha : a.isAlpha = true) (hl : Token.lexeme transposes c t = .ok l) (hspell : u ++ a :: v = l.spelling)
    (ht : u ++ a :: (letters ++ rest) = c :: t) :
    (u = [] ∧ l.kind = .word (a :: letters)) ∨ ∃ content, l.kind = .quoted content ∧ u ≠ [] := by
  have hopens : Opens u.getLast? := by
    intro x hx
    refine h.opens x ?_
    rw [List.getLast?_append, Option.mem_def.1 hx]
    rfl
  refine (lexed_letter (lexed_of_lexeme hl) hspell.symm ha hopens).imp_left fun ⟨hu, hname⟩ => ⟨hu, ?_⟩
  subst hu
  rw [hname, ← ht]
  exact congrArg TokenKind.word (takeWhile_word (namePart_of_identifier hn) h.closes)

/-- An occurrence begins with a token that is its name, or it stands in a string. Only behind a transpose on its
line may it also stand in a comment or a continuation. -/
theorem find_token_or_string (h : tokenize script = .ok toks) (hn : isIdentifier name = true)
    (ho : o ∈ Occurrence.find (sanitize script) name) :
    (∃ x ∈ toks, x.kind = .word name ∧ x.offset = o.start) ∨ InString script o.start ∨
      (∃ x ∈ toks, x.kind = .transpose ∧ x.line = o.line script ∧ x.offset < o.start) ∧
        (InComment script o.start ∨ InContinuation script o.start) := by
  obtain ⟨front, rest, htext, hstart, hplace⟩ := exists_place hn ho
  obtain ⟨a, letters, rfl, ha⟩ := exists_head hn
  obtain ⟨last, hr, -, rfl⟩ := scan_eq_ok.1 h
  obtain ⟨s, u, v, s₁, t₁, hr₀, hstep, hr₁, ⟨head, rfl⟩, hrest⟩ := hr.turn htext
  obtain ⟨head', hreached⟩ := (reached_start script).run hr₀
  obtain rfl : head' = head := by
    have htext' := hreached.text
    rw [htext, List.cons_append, show letters ++ rest = v ++ t₁ from hrest, List.append_assoc] at htext'
    exact (List.append_cancel_right htext').symm
  obtain ⟨new, later, hadv⟩ := hr₁.advance
  have hlast : ∀ x ∈ s₁.tokens, x ∈ last.tokens.reverse := fun x hx =>
    List.mem_reverse.2 (hadv.tokens ▸ List.mem_append_right later hx)
  obtain ⟨w, added, -, hadv₀⟩ := hstep.advance
  have hkept : ∀ x ∈ s.tokens, x ∈ last.tokens.reverse := fun x hx =>
    hlast x (hadv₀.tokens ▸ List.mem_append_right added hx)
  have hover := hreached.over hr₀ hstep
  rw [← hstart] at hover
  have hstep' := hstep
  generalize ht : u ++ a :: (v ++ t₁) = t at hstep'
  cases hstep' with
  | @blank c _ hc =>
    have hpiece : u ++ a :: v = [c] := piece_eq ht rfl
    obtain rfl : a = c := List.mem_singleton.1 (hpiece ▸ by simp)
    have hsigns : a ≠ ' ' ∧ a ≠ '\t' ∧ a ≠ '\r' := by
      refine ⟨?_, ?_, ?_⟩ <;> (rintro rfl; cases ha)
    simp [isSpace, hsigns] at hc
  | @continued c t hc =>
    have hpiece : u ++ a :: v = c :: (continuation t).1 := piece_eq ht (by rw [List.cons_append, continuation_append])
    obtain ⟨htransposed, hline, u, rfl⟩ := hplace.continued hreached hc hpiece (by rintro rfl; cases ha)
    obtain ⟨x, hx, hfacts⟩ := hreached.transpose htransposed hline hstart
    exact .inr (.inr ⟨⟨x, hkept x hx, hfacts⟩, .inr ⟨s, _, _, _, hover (List.cons_ne_nil _ _)⟩⟩)
  | @comment t =>
    have hpiece : u ++ a :: v = '%' :: (restOfLine t).1 := piece_eq ht (by rw [List.cons_append, restOfLine_append])
    obtain ⟨htransposed, hline, u, rfl⟩ := hplace.commented hreached hpiece (by rintro rfl; cases ha)
    obtain ⟨x, hx, hfacts⟩ := hreached.transpose htransposed hline hstart
    exact .inr (.inr ⟨⟨x, hkept x hx, hfacts⟩, .inl ⟨s, _, _, _, hover (List.cons_ne_nil _ _)⟩⟩)
  | @token _ c t l hat hl htake =>
    obtain ⟨gs, -, rfl⟩ := Scan.take_eq_ok.1 htake
    have hseparated : (s.separated c t.head?).line = s.line ∧ (s.separated c t.head?).offset = s.offset := by
      rcases s.separated_cases c t.head? with hsep | ⟨-, hsep⟩ <;> rw [hsep] <;> exact ⟨rfl, rfl⟩
    rw [hseparated.1, hseparated.2] at hlast hover
    have hword : u ++ a :: (letters ++ rest) = c :: t := by
      rw [← ht, show letters ++ rest = v ++ l.rest from hrest]
    rcases hplace.lexeme hn ha hl (piece_eq ht (lexeme_append hl).1) hword with ⟨rfl, hk⟩ | ⟨content, hk, hu⟩
    · refine .inl ⟨_, hlast _ List.mem_cons_self, ?_, ?_⟩
      · rw [hk]
        rfl
      · rw [hstart, hreached.offset, List.append_nil]
    · refine .inr (.inl ⟨s, _, _, _, content, hover hu, ?_⟩)
      rw [hk]
      rfl

/-- An assignment behind a string that quotes one, and behind a transpose. -/
def quotingScript : Text := "s = 'a = 1'; a = s';".toList

def quotingTokens : List Token :=
  [⟨.word "s".toList, 1, 0⟩, ⟨.assign, 1, 2⟩, ⟨.quoted "a = 1".toList, 1, 4⟩, ⟨.semicolon, 1, 11⟩,
    ⟨.word "a".toList, 1, 13⟩, ⟨.assign, 1, 15⟩, ⟨.word "s".toList, 1, 17⟩, ⟨.transpose, 1, 18⟩, ⟨.semicolon, 1, 19⟩]

theorem find_token_or_string_quoting :
    let o : Occurrence := ⟨5, 12, 1⟩
    tokenize quotingScript = .ok quotingTokens ∧ isIdentifier "a".toList = true ∧
      o ∈ Occurrence.find (sanitize quotingScript) "a".toList ∧
      ((∃ x ∈ quotingTokens, x.kind = .word "a".toList ∧ x.offset = o.start) ∨ InString quotingScript o.start ∨
        (∃ x ∈ quotingTokens, x.kind = .transpose ∧ x.line = o.line quotingScript ∧ x.offset < o.start) ∧
          (InComment quotingScript o.start ∨ InContinuation quotingScript o.start)) := by
  have htokens : tokenize quotingScript = .ok quotingTokens := by with_unfolding_all rfl
  have hfound : (⟨5, 12, 1⟩ : Occurrence) ∈ Occurrence.find (sanitize quotingScript) "a".toList := by decide +kernel
  exact ⟨htokens, by decide +kernel, hfound, find_token_or_string htokens (by decide +kernel) hfound⟩

/-- A statement with a transpose, read up to the comment or the continuation that follows it. -/
def transposingTokens : List Token :=
  [⟨.word "b".toList, 1, 0⟩, ⟨.assign, 1, 2⟩, ⟨.word "s".toList, 1, 4⟩, ⟨.transpose, 1, 5⟩, ⟨.semicolon, 1, 6⟩]

/-- An occurrence of `a` does not begin with a token. -/
def FindsStray (script : String) : Prop :=
  ∃ toks, tokenize script.toList = .ok toks ∧ ∃ o ∈ Occurrence.find (sanitize script.toList) "a".toList,
    ¬∃ x ∈ toks, x.kind = .word "a".toList ∧ x.offset = o.start

/-- An occurrence in a string, one in a comment behind a transpose, and one in a continuation behind a transpose:
none of them begins with a token. -/
theorem exists_find_not_token :
    FindsStray "s = 'a = 1';" ∧ FindsStray "b = s'; % '; a = 1;" ∧ FindsStray "b = s'; ... '; a = 1;" := by
  refine ⟨⟨quotingTokens.take 4, by with_unfolding_all rfl, ⟨5, 12, 1⟩, by decide +kernel, ?_⟩,
    ⟨transposingTokens, by with_unfolding_all rfl, ⟨13, 19, 1⟩, by decide +kernel, ?_⟩,
    ⟨transposingTokens, by with_unfolding_all rfl, ⟨15, 21, 1⟩, by decide +kernel, ?_⟩⟩
  all_goals simp [quotingTokens, transposingTokens]

end Edit

end ConfigScript
