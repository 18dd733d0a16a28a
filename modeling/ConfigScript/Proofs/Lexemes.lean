import ConfigScript.Proofs.Basic
import ConfigScript.Token.Lexer
/-!
# Lexemes before another rest

A lexeme looks at most at a few characters behind it. Two rests are `Alike` if no lexeme in front of
them can tell them apart, and a lexeme in front of one is then the same lexeme in front of the
other (`lexeme_exchange`).
-/

namespace ConfigScript

namespace Token

/-! ## Rests that lexemes cannot tell apart -/

/-- The text is at its end, or goes on with what no lexeme before it looks at. -/
def Closed (t : Text) : Prop := ∀ c ∈ t.head?, c = '\n' ∨ c = ';' ∨ c = '%'

/-- Two texts that begin with the same characters, up to a place where both are closed or assign. -/
inductive Alike : Text → Text → Prop
  | closed {t t' : Text} : Closed t → Closed t' → Alike t t'
  | assign {t t' : Text} : Alike ('=' :: t) ('=' :: t')
  | cons {c : Char} {t t' : Text} : Alike t t' → Alike (c :: t) (c :: t')

theorem closed_nil : Closed [] := nofun

theorem closed_cons {c : Char} {t : Text} : Closed (c :: t) ↔ c = '\n' ∨ c = ';' ∨ c = '%' := by
  simp [Closed]

variable {t t' rest rest' : Text} {c : Char} {p : Char → Bool}

theorem Alike.append (h : Alike rest rest') (u : Text) : Alike (u ++ rest) (u ++ rest') := by
  induction u with
  | nil => exact h
  | cons c u ih => exact .cons ih

/-- The next characters are the same, or the texts are closed. -/
theorem Alike.head (h : Alike t t') : t.head? = t'.head? ∨ Closed t ∧ Closed t' := by
  cases h with
  | closed h h' => exact .inr ⟨h, h'⟩
  | assign => exact .inl rfl
  | cons => exact .inl rfl

/-- A sort of characters to which none of those belongs that close a text. -/
def Inner (p : Char → Bool) : Prop := p '\n' = false ∧ p ';' = false ∧ p '%' = false

instance : Decidable (Inner p) := inferInstanceAs (Decidable (_ ∧ _ ∧ _))

theorem Closed.any (h : Closed t) (hp : Inner p) : t.head?.any p = false := by
  obtain ⟨h₁, h₂, h₃⟩ := hp
  cases t with
  | nil => rfl
  | cons c t =>
    rcases closed_cons.1 h with rfl | rfl | rfl
    · exact h₁
    · exact h₂
    · exact h₃

theorem Alike.any (h : Alike t t') (hp : Inner p) : t.head?.any p = t'.head?.any p := by
  rcases h.head with h | ⟨h, h'⟩
  · rw [h]
  · rw [h.any hp, h'.any hp]

theorem takeWhile_of_any (h : t.head?.any p = false) : t.takeWhile p = [] ∧ t.dropWhile p = t := by
  cases t with
  | nil => exact ⟨rfl, rfl⟩
  | cons c t =>
    have hc : p c = false := h
    simp [hc]

/-- A run of characters of an inner sort is the same in both texts, and they go on alike. -/
theorem Alike.takeWhile (h : Alike t t') (hp : Inner p) (heq : p '=' = false) :
    t.takeWhile p = t'.takeWhile p ∧ Alike (t.dropWhile p) (t'.dropWhile p) := by
  induction h with
  | closed h h' =>
    obtain ⟨ht, hd⟩ := takeWhile_of_any (h.any hp)
    obtain ⟨ht', hd'⟩ := takeWhile_of_any (h'.any hp)
    rw [ht, ht', hd, hd']
    exact ⟨rfl, .closed h h'⟩
  | assign =>
    obtain ⟨ht, hd⟩ := takeWhile_of_any (t := '=' :: _) heq
    rw [ht, hd, (takeWhile_of_any (t := '=' :: _) heq).1, (takeWhile_of_any (t := '=' :: _) heq).2]
    exact ⟨rfl, .assign⟩
  | @cons c t t' h ih =>
    cases hc : p c with
    | true => simpa [hc] using ih
    | false => simpa [hc] using Alike.cons h

/-! ## Sorts of characters -/

theorem codes_of_isDigit (h : c.isDigit = true) : 48 ≤ c.toNat ∧ c.toNat ≤ 57 := by
  obtain ⟨hlow, hhigh⟩ := Bool.and_eq_true_iff.1 h
  exact ⟨of_decide_eq_true hlow, of_decide_eq_true hhigh⟩

theorem codes_of_isAlpha (h : c.isAlpha = true) :
    65 ≤ c.toNat ∧ c.toNat ≤ 90 ∨ 97 ≤ c.toNat ∧ c.toNat ≤ 122 := by
  rcases Bool.or_eq_true_iff.1 h with h | h
  · exact .inl (of_decide_eq_true h)
  · obtain ⟨hlow, hhigh⟩ := Bool.and_eq_true_iff.1 h
    exact .inr ⟨of_decide_eq_true hlow, of_decide_eq_true hhigh⟩

theorem codes_of_namePart (h : isNamePart c = true) : 48 ≤ c.toNat ∧ c.toNat ≤ 122 := by
  rcases Bool.or_eq_true_iff.1 h with h | h
  · rcases Bool.or_eq_true_iff.1 h with h | h
    · have hcodes := codes_of_isAlpha h
      omega
    · have hcodes := codes_of_isDigit h
      omega
  · rw [beq_iff_eq.1 h]
    decide

theorem not_isDigit_of_isAlpha (h : c.isAlpha = true) : c.isDigit = false := by
  rw [Bool.eq_false_iff]
  intro hd
  have hdigit := codes_of_isDigit hd
  have hletter := codes_of_isAlpha h
  omega

/-! ## Numerals and names -/

theorem inner_isDigit : Inner Char.isDigit := by decide

theorem inner_isNamePart : Inner isNamePart := by decide

theorem Alike.opensOperator (h : Alike t t') : opensOperator t = opensOperator t' := by
  have hh : ∀ t, Token.opensOperator t =
      t.head?.any fun c => c == '*' || c == '/' || c == '^' || c == '\x27' || c == '.' := by
    intro t
    cases t <;> rfl
  rw [hh, hh]
  exact h.any (by decide)

theorem fractionPart_of_ne (h : t.head? ≠ some '.') : fractionPart t = ([], [], t) := by
  unfold fractionPart
  split
  · simp at h
  · rfl

theorem Closed.head_ne {d : Char} (h : Closed t) (hd : d ≠ '\n' ∧ d ≠ ';' ∧ d ≠ '%') : t.head? ≠ some d := by
  rintro ht
  rcases h d ht with rfl | rfl | rfl
  · exact hd.1 rfl
  · exact hd.2.1 rfl
  · exact hd.2.2 rfl

theorem Alike.fractionPart (h : Alike t t') :
    (fractionPart t).1 = (fractionPart t').1 ∧ (fractionPart t).2.1 = (fractionPart t').2.1 ∧
      Alike (fractionPart t).2.2 (fractionPart t').2.2 := by
  cases h with
  | closed h h' =>
    rw [fractionPart_of_ne (h.head_ne (by decide)), fractionPart_of_ne (h'.head_ne (by decide))]
    exact ⟨rfl, rfl, .closed h h'⟩
  | assign =>
    rw [fractionPart_of_ne (by simp), fractionPart_of_ne (by simp)]
    exact ⟨rfl, rfl, .assign⟩
  | @cons c t t' h =>
    by_cases hc : c = '.'
    · subst hc
      simp only [Token.fractionPart, h.opensOperator]
      obtain ⟨ht, hd⟩ := h.takeWhile inner_isDigit (by decide)
      split
      · exact ⟨rfl, rfl, .cons h⟩
      · exact ⟨ht, congrArg ('.' :: ·) ht, hd⟩
    · rw [fractionPart_of_ne (by simpa using hc), fractionPart_of_ne (by simpa using hc)]
      exact ⟨rfl, rfl, .cons h⟩

theorem exponentSign_of_ne (h : t.head? ≠ some '+' ∧ t.head? ≠ some '-') : exponentSign t = ([], t) := by
  unfold exponentSign
  split
  · simp at h
  · simp at h
  · rfl

theorem Alike.exponentSign (h : Alike t t') :
    (exponentSign t).1 = (exponentSign t').1 ∧ Alike (exponentSign t).2 (exponentSign t').2 := by
  cases h with
  | closed h h' =>
    rw [exponentSign_of_ne ⟨h.head_ne (by decide), h.head_ne (by decide)⟩,
      exponentSign_of_ne ⟨h'.head_ne (by decide), h'.head_ne (by decide)⟩]
    exact ⟨rfl, .closed h h'⟩
  | assign =>
    rw [exponentSign_of_ne (by simp), exponentSign_of_ne (by simp)]
    exact ⟨rfl, .assign⟩
  | @cons c t t' h =>
    by_cases hc : c = '+'
    · subst hc
      exact ⟨rfl, h⟩
    by_cases hc' : c = '-'
    · subst hc'
      exact ⟨rfl, h⟩
    rw [exponentSign_of_ne (by simp [hc, hc']), exponentSign_of_ne (by simp [hc, hc'])]
    exact ⟨rfl, .cons h⟩

theorem exponentPart_of_ne (h : t.head? ≠ some 'e' ∧ t.head? ≠ some 'E') : exponentPart t = (0, [], t) := by
  cases t with
  | nil => rfl
  | cons c t =>
    have hc : c ≠ 'e' ∧ c ≠ 'E' := by simpa using h
    simp [exponentPart, hc.1, hc.2]

theorem Alike.exponentPart (h : Alike t t') :
    (exponentPart t).1 = (exponentPart t').1 ∧ (exponentPart t).2.1 = (exponentPart t').2.1 ∧
      Alike (exponentPart t).2.2 (exponentPart t').2.2 := by
  cases h with
  | closed h h' =>
    rw [exponentPart_of_ne ⟨h.head_ne (by decide), h.head_ne (by decide)⟩,
      exponentPart_of_ne ⟨h'.head_ne (by decide), h'.head_ne (by decide)⟩]
    exact ⟨rfl, rfl, .closed h h'⟩
  | assign =>
    rw [exponentPart_of_ne (by simp), exponentPart_of_ne (by simp)]
    exact ⟨rfl, rfl, .assign⟩
  | cons h =>
    obtain ⟨hs, hu⟩ := h.exponentSign
    obtain ⟨ht, hd⟩ := hu.takeWhile inner_isDigit (by decide)
    simp only [Token.exponentPart, hs, ht]
    split
    · exact ⟨rfl, rfl, hd⟩
    · exact ⟨rfl, rfl, .cons h⟩

theorem Alike.numeral (h : Alike t t') :
    (numeral t).kind = (numeral t').kind ∧ (numeral t).spelling = (numeral t').spelling ∧
      Alike (numeral t).rest (numeral t').rest := by
  obtain ⟨hw, hd⟩ := h.takeWhile inner_isDigit (by decide)
  obtain ⟨hf, hp, hr⟩ := hd.fractionPart
  obtain ⟨he, hs, hr'⟩ := hr.exponentPart
  simp only [Token.numeral, hw, hf, hp, he, hs, true_and]
  exact hr'

theorem Lexeme.eq_of_parts {l l' : Lexeme} (hk : l.kind = l'.kind) (hs : l.spelling = l'.spelling)
    (hr : l'.rest = rest) : l' = ⟨l.kind, l.spelling, rest⟩ := by
  obtain ⟨kind, spelling, rest⟩ := l
  cases hk
  cases hs
  cases hr
  rfl

/-- A lexeme that is spelled the same in both texts leaves what follows it in each of them. -/
theorem rest_of_spelling {u : Text} {l l' : Lexeme} (h : l.spelling ++ l.rest = u ++ rest)
    (hr : l.rest = rest) (h' : l'.spelling ++ l'.rest = u ++ rest') (hs : l.spelling = l'.spelling) :
    l'.rest = rest' := by
  rw [hr, List.append_cancel_right_eq] at h
  rwa [← hs, h, List.append_cancel_left_eq] at h'

theorem numeral_exchange {u : Text} (ha : Alike rest rest') (h : (numeral (u ++ rest)).rest = rest) :
    numeral (u ++ rest') = ⟨(numeral (u ++ rest)).kind, (numeral (u ++ rest)).spelling, rest'⟩ := by
  obtain ⟨hk, hs, -⟩ := (ha.append u).numeral
  exact Lexeme.eq_of_parts hk hs (rest_of_spelling (numeral_append _) h (numeral_append _) hs)

/-- A letter, then letters, digits and underscores. -/
def IsWord (t : Text) : Prop := t.head?.any Char.isAlpha = true ∧ t.all isNamePart = true

instance : Decidable (IsWord t) := inferInstanceAs (Decidable (_ ∧ _))

theorem name_exchange {u : Text} (ha : Alike rest rest') (h : (name (u ++ rest)).rest = rest) :
    name (u ++ rest') = ⟨(name (u ++ rest)).kind, (name (u ++ rest)).spelling, rest'⟩ := by
  have hs := ((ha.append u).takeWhile inner_isNamePart (by decide)).1
  exact Lexeme.eq_of_parts (congrArg TokenKind.word hs) hs (rest_of_spelling (name_append _) h (name_append _) hs)

/-! ## Strings and operators -/

theorem stringBody_close {delimiter : Char} (h : t.head? ≠ some delimiter) :
    stringBody delimiter (delimiter :: t) = some ([], [delimiter], t) := by
  cases t with
  | nil => simp [stringBody]
  | cons c t =>
    have hc : c ≠ delimiter := by simpa using h
    simp [stringBody, hc]

/-- A string is closed before what does not double its delimiter. -/
theorem stringBody_rest {delimiter : Char} {content spelling : Text}
    (h : stringBody delimiter t = some (content, spelling, rest)) : rest.head? ≠ some delimiter := by
  fun_induction stringBody delimiter t generalizing content spelling rest with
  | case1 => cases h
  | case2 =>
    cases h
    simp
  | case3 => cases h
  | case4 t ih =>
    obtain ⟨⟨a, b, r⟩, hr, he⟩ := Option.map_eq_some_iff.1 h
    cases he
    exact ih hr
  | case5 d t hd =>
    cases h
    simpa using hd
  | case6 => cases h
  | case7 c d t hne hbreak ih =>
    obtain ⟨⟨a, b, r⟩, hr, he⟩ := Option.map_eq_some_iff.1 h
    cases he
    exact ih hr

/-- A string is the same string before whatever does not double its delimiter. -/
theorem stringBody_before {delimiter : Char} {u content : Text}
    (h : stringBody delimiter (u ++ rest) = some (content, u, rest)) (hr : rest'.head? ≠ some delimiter) :
    stringBody delimiter (u ++ rest') = some (content, u, rest') := by
  generalize ht : u ++ rest = t at h
  fun_induction stringBody delimiter t generalizing u content with
  | case1 => cases h
  | case2 =>
    cases h
    exact stringBody_close hr
  | case3 => cases h
  | case4 t ih =>
    obtain ⟨⟨a, b, r⟩, hb, he⟩ := Option.map_eq_some_iff.1 h
    cases he
    have hb' := ih (by simpa using ht) hb
    simp [stringBody, hb']
  | case5 d t hne =>
    cases h
    exact stringBody_close hr
  | case6 => cases h
  | case7 c d t hne hbreak ih =>
    obtain ⟨⟨a, b, r⟩, hb, he⟩ := Option.map_eq_some_iff.1 h
    cases he
    have hb' := ih (by simpa using ht) hb
    cases hv : b ++ rest' with
    | nil =>
      rw [hv] at hb'
      cases hb'
    | cons e v =>
      rw [hv] at hb'
      simp [stringBody, hne, hbreak, hv, hb']

theorem stringBody_exchange {delimiter : Char} (hd : delimiter ≠ '\n' ∧ delimiter ≠ ';' ∧ delimiter ≠ '%')
    {u content : Text} (ha : Alike rest rest')
    (h : stringBody delimiter (u ++ rest) = some (content, u, rest)) :
    stringBody delimiter (u ++ rest') = some (content, u, rest') := by
  refine stringBody_before h ?_
  rcases ha.head with hh | ⟨-, hc⟩
  · rw [← hh]
    exact stringBody_rest h
  · exact hc.head_ne hd

/-- An operator of two characters takes the second one. -/
theorem operator?_none {kind : TokenKind} (c : Char) : operator? c none ≠ some (kind, true) := by
  unfold operator?
  split <;> simp_all

/-- Only a few characters are the second one of an operator. -/
theorem operator?_some {d : Char} (hd : d ≠ '*' ∧ d ≠ '/' ∧ d ≠ '^' ∧ d ≠ '\x27' ∧ d ≠ '=' ∧ d ≠ '&' ∧ d ≠ '|')
    (c : Char) : operator? c (some d) = operator? c none := by
  unfold operator?
  split
  all_goals first
    | rfl
    | (next h => cases h; simp at hd)
    | skip
  -- what begins no operator with one character behind it begins none alone
  split <;> simp_all

theorem operator?_closed (h : Closed t) (c : Char) : operator? c t.head? = operator? c none := by
  cases t with
  | nil => rfl
  | cons d t => rcases closed_cons.1 h with rfl | rfl | rfl <;> exact operator?_some (by decide) c

theorem Alike.operator? (h : Alike t t') (c : Char) :
    operator? c t.head? = operator? c t'.head? := by
  rcases h.head with h | ⟨h, h'⟩
  · rw [h]
  · rw [operator?_closed h, operator?_closed h']

theorem string_exchange {u : Text} {kind : TokenKind} (hq : c = '\x27' ∨ c = '"') (ha : Alike rest rest')
    (h : string c (u ++ rest) = .ok ⟨kind, c :: u, rest⟩) :
    string c (u ++ rest') = .ok ⟨kind, c :: u, rest'⟩ := by
  have hd : c ≠ '\n' ∧ c ≠ ';' ∧ c ≠ '%' := by
    rcases hq with rfl | rfl <;> decide
  unfold string at h ⊢
  split at h
  · next content spelling rest₁ hb =>
    cases h
    rw [stringBody_exchange hd ha hb]
  · cases h

/-- An operator of two characters is spelled by both. -/
theorem spelling_of_two {u : Text} {kind : TokenKind} (ho : operator? c (u ++ rest).head? = some (kind, true))
    (hu : (u ++ rest).take 1 = u) (hrest : (u ++ rest).drop 1 = rest) : ∃ d, u = [d] := by
  cases u with
  | cons d u =>
    have hu : u = [] := by simpa using hu.symm
    exact ⟨d, by rw [hu]⟩
  | nil =>
    -- the rest is shorter by the second character, so there is none
    cases rest with
    | nil => exact absurd ho (operator?_none c)
    | cons d t => simp at hrest

/-- A lexeme in front of a rest is the same lexeme in front of another one, if each kind of lexeme is. -/
theorem lexeme_before {transposes : Bool} {u : Text} {kind : TokenKind}
    (hdigit : (u ++ rest).head?.any Char.isDigit = (u ++ rest').head?.any Char.isDigit)
    (hnumeral : numeral (c :: u ++ rest) = ⟨kind, c :: u, rest⟩ → numeral (c :: u ++ rest') = ⟨kind, c :: u, rest'⟩)
    (hname : name (c :: u ++ rest) = ⟨kind, c :: u, rest⟩ → name (c :: u ++ rest') = ⟨kind, c :: u, rest'⟩)
    (hstring : c = '\x27' ∨ c = '"' → string c (u ++ rest) = .ok ⟨kind, c :: u, rest⟩ →
      string c (u ++ rest') = .ok ⟨kind, c :: u, rest'⟩)
    (hoperator : operator? c (u ++ rest).head? = operator? c (u ++ rest').head?)
    (h : lexeme transposes c (u ++ rest) = .ok ⟨kind, c :: u, rest⟩) :
    lexeme transposes c (u ++ rest') = .ok ⟨kind, c :: u, rest'⟩ := by
  unfold lexeme at h ⊢
  rw [← hdigit, ← hoperator]
  split at h
  · next hd =>
    rw [if_pos hd]
    exact congrArg _ (hnumeral (Except.ok.inj h))
  next hd =>
  rw [if_neg hd]
  split at h
  · next halpha =>
    rw [if_pos halpha]
    exact congrArg _ (hname (Except.ok.inj h))
  next halpha =>
  rw [if_neg halpha]
  split at h
  · next htranspose =>
    rw [if_pos htranspose]
    simp only [Except.ok.injEq, Lexeme.mk.injEq, List.cons.injEq] at h
    obtain ⟨rfl, ⟨-, rfl⟩, -⟩ := h
    rfl
  next htranspose =>
  rw [if_neg htranspose]
  split at h
  · next hquote =>
    rw [if_pos hquote]
    exact hstring (by simpa using hquote) h
  next hquote =>
  rw [if_neg hquote]
  split at h
  · next k ho =>
    simp only [Except.ok.injEq, Lexeme.mk.injEq, List.cons.injEq, true_and] at h
    obtain ⟨rfl, hu, hr⟩ := h
    obtain ⟨d, rfl⟩ := spelling_of_two ho hu hr
    rfl
  · next k ho =>
    simp only [Except.ok.injEq, Lexeme.mk.injEq, List.cons.injEq, true_and] at h
    obtain ⟨rfl, rfl, -⟩ := h
    rfl
  · cases h

/-- A lexeme in front of a rest is the same lexeme in front of a rest like it. -/
theorem lexeme_exchange {transposes : Bool} {u : Text} {kind : TokenKind} (ha : Alike rest rest')
    (h : lexeme transposes c (u ++ rest) = .ok ⟨kind, c :: u, rest⟩) :
    lexeme transposes c (u ++ rest') = .ok ⟨kind, c :: u, rest'⟩ := by
  have hau := ha.append u
  refine lexeme_before (hau.any inner_isDigit) (fun hl => ?_) (fun hl => ?_) (fun hc hl => string_exchange hc ha hl)
    (hau.operator? c) h
  · rw [numeral_exchange ha (congrArg Lexeme.rest hl), hl]
  · rw [name_exchange ha (congrArg Lexeme.rest hl), hl]

/-! ## Lexemes of one character -/

/-- What does not end an operand is an operator. -/
theorem operator_of_lexeme {transposes : Bool} {l : Lexeme} (h : lexeme transposes c t = .ok l)
    (hk : l.kind.endsOperand = false) :
    ∃ two, operator? c t.head? = some (l.kind, two) ∧ (two = false → l.spelling = [c] ∧ l.rest = t) := by
  unfold lexeme at h
  split at h
  · cases h
    cases hk
  split at h
  · cases h
    cases hk
  split at h
  · cases h
    cases hk
  split at h
  · unfold string at h
    split at h
    · cases h
      cases hk
    · cases h
  split at h
  · next k ho =>
    cases h
    exact ⟨true, ho, nofun⟩
  · next k ho =>
    cases h
    exact ⟨false, ho, fun _ => ⟨rfl, rfl⟩⟩
  · cases h

/-- The characters that assign or separate statements. -/
inductive Sign : Char → TokenKind → Prop
  | assign : Sign '=' .assign
  | newline : Sign '\n' .newline
  | semicolon : Sign ';' .semicolon
  | comma : Sign ',' .comma

theorem sign_of_operator {next : Option Char} {kind : TokenKind} {two : Bool}
    (h : operator? c next = some (kind, two)) (hk : kind = .assign ∨ kind.separates = true) :
    two = false ∧ Sign c kind := by
  unfold operator? at h
  split at h
  all_goals first
    | (cases h; exact ⟨rfl, .assign⟩)
    | (cases h; exact ⟨rfl, .newline⟩)
    | (cases h; exact ⟨rfl, .semicolon⟩)
    | (cases h; exact ⟨rfl, .comma⟩)
    | (cases h; simp [TokenKind.separates] at hk)
    | cases h

theorem not_endsOperand_of_separates {k : TokenKind} (h : k.separates = true) : k.endsOperand = false := by
  cases k with
  | newline | semicolon | comma => rfl
  | _ => cases h

/-- What assigns or separates is one character. -/
theorem sign_of_lexeme {transposes : Bool} {l : Lexeme} (h : lexeme transposes c t = .ok l)
    (hk : l.kind = .assign ∨ l.kind.separates = true) :
    Sign c l.kind ∧ l.spelling = [c] ∧ l.rest = t := by
  have hend : l.kind.endsOperand = false := by
    rcases hk with hk | hk
    · rw [hk]
      rfl
    · exact not_endsOperand_of_separates hk
  obtain ⟨two, ho, hl⟩ := operator_of_lexeme h hend
  obtain ⟨htwo, hs⟩ := sign_of_operator ho hk
  exact ⟨hs, hl htwo⟩

end Token

end ConfigScript
