import ConfigScript.Proofs.Grammar
import ConfigScript.Proofs.Lexemes
import Mathlib.Data.List.TakeWhile
/-!
# The scan, step by step

`Step` is one turn of the scan and `Run` any number of them: a script has the tokens that a run to
its end collects (`scan_eq_ok`), and a scan that fails does so where a run has come to (`run_of_error`).
A run knows how far it has come and which brackets are open (`Run.advance`), it goes the same way
before a rest that is like its own (`Run.exchange`), and from two states that lexemes cannot tell
apart it collects the same kinds of tokens (`Run.mirror`). Each token was taken at one of its turns
(`Run.reach`).
-/

namespace ConfigScript

namespace Token

open Program (nest nestAll nestAll_single nestAll_append)

/-! ## Steps -/

/-- The state in which the lexeme at `c` is read: a comma is added if the blanks in front of it
separate elements. -/
def Scan.separated (s : Scan) (c : Char) (next : Option Char) : Scan :=
  if s.spaced && s.concatenates && s.afterOperand && startsElement c next then s.emit .comma else s

/-- Stands between lexemes. -/
def isSpace (c : Char) : Bool := c = ' ' || c = '\t' || c = '\r'

/-- A lexeme is read here: neither a blank nor a continuation nor a comment. -/
structure AtLexeme (c : Char) (t : Text) : Prop where
  inked : isSpace c = false
  here : startsContinuation (c :: t) = false
  code : c ≠ '%'

/-- One turn of the scan. -/
inductive Step : Scan → Text → Scan → Text → Prop
  | blank {s : Scan} {c : Char} {t : Text} :
    isSpace c = true → Step s (c :: t) { s.pass [c] with spaced := true } t
  | continued {s : Scan} {c : Char} {t : Text} :
    startsContinuation (c :: t) = true →
    Step s (c :: t) { s.pass (c :: (continuation t).1) with spaced := true } (continuation t).2
  | comment {s : Scan} {t : Text} :
    Step s ('%' :: t) (s.pass ('%' :: (restOfLine t).1)) (restOfLine t).2
  | token {s next : Scan} {c : Char} {t : Text} {l : Lexeme} :
    AtLexeme c t → lexeme ((s.separated c t.head?).afterOperand && !s.spaced) c t = .ok l →
    (s.separated c t.head?).take l = .ok next → Step s (c :: t) next l.rest

/-- Any number of turns. -/
inductive Run : Scan → Text → Scan → Text → Prop
  | nil {s : Scan} {t : Text} : Run s t s t
  | cons {s s₁ s₂ : Scan} {t t₁ t₂ : Text} : Step s t s₁ t₁ → Run s₁ t₁ s₂ t₂ → Run s t s₂ t₂

variable {s s' s₁ s₂ : Scan} {t t' t₁ t₂ u rest rest' : Text} {c : Char} {l : Lexeme}

theorem Run.single (h : Step s t s₁ t₁) : Run s t s₁ t₁ := .cons h .nil

theorem Run.trans (h : Run s t s₁ t₁) (h' : Run s₁ t₁ s₂ t₂) : Run s t s₂ t₂ := by
  induction h with
  | nil => exact h'
  | cons hs _ ih => exact .cons hs (ih h')

theorem Run.of_nil (h : Run s [] s₁ t₁) : s₁ = s ∧ t₁ = [] := by
  cases h with
  | nil => exact ⟨rfl, rfl⟩
  | cons hs _ => cases hs

theorem scan_cons (s : Scan) (c : Char) (t : Text) :
    scan s (c :: t) =
      if isSpace c then scan { s.pass [c] with spaced := true } t
      else if startsContinuation (c :: t) then
        scan { s.pass (c :: (continuation t).1) with spaced := true } (continuation t).2
      else if c = '%' then scan (s.pass (c :: (restOfLine t).1)) (restOfLine t).2
      else
        match lexeme ((s.separated c t.head?).afterOperand && !s.spaced) c t with
        | .error cause => (s.separated c t.head?).fail cause
        | .ok l =>
          match (s.separated c t.head?).take l with
          | .error e => .error e
          | .ok next => scan next l.rest := by
  rw [scan]
  refine congrArg (ite _ _) (congrArg (ite _ _) (congrArg (ite _ _) ?_))
  simp only [Scan.separated]
  split
  · next hl => rw [hl]
  · next hl => exact hl ▸ rfl

theorem isSpace_of_continuation (h : startsContinuation (c :: t) = true) : isSpace c = false := by
  unfold startsContinuation at h
  split at h
  · next heq =>
    cases heq
    rfl
  · cases h

theorem scan_of_step (h : Step s t s₁ t₁) : scan s t = scan s₁ t₁ := by
  cases h with
  | blank hc => rw [scan_cons, if_pos hc]
  | continued hc => rw [scan_cons, if_neg (by simp [isSpace_of_continuation hc]), if_pos hc]
  | comment => rw [scan_cons, if_neg (by decide), if_neg nofun, if_pos rfl]
  | token hat hl ht =>
    rw [scan_cons, if_neg (by simp [hat.inked]), if_neg (by simp [hat.here]), if_neg hat.code]
    simp only [hl, ht]

theorem scan_of_run (h : Run s t s₁ t₁) : scan s t = scan s₁ t₁ := by
  induction h with
  | nil => rfl
  | cons hs _ ih => rw [scan_of_step hs, ih]

/-- A blank in front of an element counts as a comma, and nothing else is added before a lexeme. -/
theorem Scan.separated_cases (s : Scan) (c : Char) (next : Option Char) :
    s.separated c next = s ∨ s.concatenates = true ∧ s.separated c next = s.emit .comma := by
  unfold Scan.separated
  split
  · next h =>
    simp only [Bool.and_eq_true] at h
    exact .inr ⟨h.1.1.2, rfl⟩
  · exact .inl rfl

theorem Scan.line_separated (s : Scan) (c : Char) (next : Option Char) : (s.separated c next).line = s.line := by
  rcases s.separated_cases c next with h | ⟨-, h⟩ <;> rw [h]
  rfl

theorem Scan.line_of_take {e : SyntaxError} (h : s.take l = .error e) : e.line = s.line := by
  rcases bind_eq_error.1 h with h | ⟨_, -, h⟩
  · unfold Scan.regroup at h
    split at h
    · cases h
    · split at h
      · split at h <;> cases h
        rfl
      · cases h
        rfl
    · cases h
  · cases h

/-- A scan takes a turn at every character, or fails there on its line. -/
theorem step_or_fails (s : Scan) (c : Char) (t : Text) :
    (∃ s₁ t₁, Step s (c :: t) s₁ t₁ ∧ t₁.length ≤ t.length) ∨
      ∃ e, scan s (c :: t) = .error e ∧ e.line = s.line := by
  by_cases hspace : isSpace c = true
  · exact .inl ⟨_, _, .blank hspace, Nat.le_refl _⟩
  by_cases hhere : startsContinuation (c :: t) = true
  · exact .inl ⟨_, _, .continued hhere, continuation_length t⟩
  by_cases hcode : c = '%'
  · subst hcode
    exact .inl ⟨_, _, .comment, restOfLine_length t⟩
  have hscan := scan_cons s c t
  rw [if_neg hspace, if_neg hhere, if_neg hcode] at hscan
  cases hl : lexeme ((s.separated c t.head?).afterOperand && !s.spaced) c t with
  | error cause =>
    simp only [hl] at hscan
    exact .inr ⟨_, hscan, s.line_separated c t.head?⟩
  | ok l =>
    cases hn : (s.separated c t.head?).take l with
    | error e =>
      simp only [hl, hn] at hscan
      exact .inr ⟨e, hscan, (Scan.line_of_take hn).trans (s.line_separated c t.head?)⟩
    | ok next =>
      have hat : AtLexeme c t := ⟨by simpa using hspace, by simpa using hhere, hcode⟩
      exact .inl ⟨next, l.rest, .token hat hl hn, lexeme_rest_length hl⟩

/-- A scan that succeeds takes a turn at every character. -/
theorem exists_step {toks : List Token} (h : scan s (c :: t) = .ok toks) :
    ∃ s₁ t₁, Step s (c :: t) s₁ t₁ ∧ t₁.length ≤ t.length ∧ scan s₁ t₁ = .ok toks := by
  rcases step_or_fails s c t with ⟨s₁, t₁, hs, hlen⟩ | ⟨e, he, -⟩
  · exact ⟨s₁, t₁, hs, hlen, scan_of_step hs ▸ h⟩
  · rw [he] at h
    cases h

/-- A scan runs to the end of the text, or to where it fails, on the line there. -/
theorem exists_run (s : Scan) (t : Text) :
    ∃ s₁ t₁, Run s t s₁ t₁ ∧ (t₁ = [] ∨ ∃ e, scan s₁ t₁ = .error e ∧ e.line = s₁.line) := by
  induction hn : t.length using Nat.strongRecOn generalizing s t with
  | ind n ih =>
    subst hn
    cases t with
    | nil => exact ⟨s, [], .nil, .inl rfl⟩
    | cons c t =>
      rcases step_or_fails s c t with ⟨s₁, t₁, hs, hlen⟩ | hfails
      · obtain ⟨s₂, t₂, hr, hend⟩ := ih t₁.length (Nat.lt_succ_of_le hlen) s₁ t₁ rfl
        exact ⟨s₂, t₂, .cons hs hr, hend⟩
      · exact ⟨s, c :: t, .nil, .inr hfails⟩

theorem scan_nil_eq_ok {toks : List Token} :
    scan s [] = .ok toks ↔ s.groups = [] ∧ toks = s.tokens.reverse := by
  rw [scan]
  cases s.groups with
  | nil => simp [eq_comm]
  | cons => simp [Scan.fail]

/-- The tokens of a script are those that a run to its end has collected, if no bracket is open
there. -/
theorem scan_eq_ok {toks : List Token} :
    scan s t = .ok toks ↔ ∃ s', Run s t s' [] ∧ s'.groups = [] ∧ toks = s'.tokens.reverse := by
  constructor
  · intro h
    obtain ⟨s', t', hr, rfl | ⟨e, he, -⟩⟩ := exists_run s t
    · rw [scan_of_run hr] at h
      exact ⟨s', hr, scan_nil_eq_ok.1 h⟩
    · rw [scan_of_run hr, he] at h
      cases h
  · rintro ⟨s', hr, hg⟩
    rw [scan_of_run hr]
    exact scan_nil_eq_ok.2 hg

/-- A scan that fails does so where a run has come to, on the line there. -/
theorem run_of_error {e : SyntaxError} (h : scan s t = .error e) : ∃ s₁ t₁, Run s t s₁ t₁ ∧ e.line = s₁.line := by
  obtain ⟨s₁, t₁, hr, hend⟩ := exists_run s t
  rw [scan_of_run hr] at h
  rcases hend with rfl | ⟨e', he, hline⟩
  · rw [scan] at h
    split at h
    · cases h
      exact ⟨s₁, [], hr, rfl⟩
    · cases h
  · rw [he] at h
    cases h
    exact ⟨s₁, t₁, hr, hline⟩

/-! ## What a run has passed and collected -/

theorem restOfLine_append (t : Text) : (restOfLine t).1 ++ (restOfLine t).2 = t :=
  List.takeWhile_append_dropWhile

theorem continuation_append (t : Text) : (continuation t).1 ++ (continuation t).2 = t := by
  have h := restOfLine_append t
  unfold continuation
  split
  · next heq =>
    rw [heq] at h
    simpa using h
  · next heq =>
    rw [heq] at h
    exact h

/-- What a turn has passed is the continuation with the character in front. -/
theorem eq_cons_continuation (h : u ++ (continuation t).2 = c :: t) : u = c :: (continuation t).1 := by
  refine List.append_cancel_right (h.trans ?_)
  rw [List.cons_append, continuation_append]

theorem eq_cons_restOfLine (h : u ++ (restOfLine t).2 = c :: t) : u = c :: (restOfLine t).1 := by
  refine List.append_cancel_right (h.trans ?_)
  rw [List.cons_append, restOfLine_append]

theorem Scan.regroup_eq_ok {kind : TokenKind} :
    s.regroup kind = .ok s' ↔ ∃ gs, nest s.groups kind = some gs ∧ s' = { s with groups := gs } := by
  cases kind with
  | closing b =>
    cases hg : s.groups with
    | nil => simp [Scan.regroup, nest, hg, Scan.fail]
    | cons g outer =>
      by_cases hb : g = b
      · simp [Scan.regroup, nest, hg, hb, eq_comm]
      · simp [Scan.regroup, nest, hg, hb, Scan.fail]
  | _ =>
    constructor
    · rintro ⟨⟩
      exact ⟨_, rfl, rfl⟩
    · rintro ⟨gs, ⟨⟩, rfl⟩
      rfl

/-- Taking a lexeme adds its token here, if its bracket fits. -/
theorem Scan.take_eq_ok :
    s.take l = .ok s' ↔ ∃ gs, nest s.groups (s.settledKind l.kind) = some gs ∧
      s' = ⟨s.line + l.spelling.lineBreaks, s.offset + l.spelling.byteLength, gs, false,
        ⟨s.settledKind l.kind, s.line, s.offset⟩ :: s.tokens⟩ := by
  unfold Scan.take
  rw [bind_eq_ok]
  constructor
  · rintro ⟨g, hg, h⟩
    obtain ⟨gs, hn, rfl⟩ := Scan.regroup_eq_ok.1 hg
    cases h
    exact ⟨gs, hn, rfl⟩
  · rintro ⟨gs, hn, rfl⟩
    exact ⟨_, Scan.regroup_eq_ok.2 ⟨gs, hn, rfl⟩, rfl⟩

/-- In brackets that concatenate and set off by blanks from an operand, so that a comma may be added. -/
def Scan.loose (s : Scan) : Bool := s.spaced && s.concatenates && s.afterOperand

theorem Scan.separated_of_loose (h : s.loose = false) (c : Char) (next : Option Char) : s.separated c next = s := by
  rw [Scan.loose] at h
  simp [Scan.separated, h]

theorem Scan.separated_of_groups (hg : s.groups = []) (c : Char) (next : Option Char) :
    s.separated c next = s := by
  rcases s.separated_cases c next with h | ⟨h, -⟩
  · exact h
  · simp [Scan.concatenates, hg] at h

/-- What a step has done: it has passed a piece of the text and perhaps added tokens. -/
structure Advance (s : Scan) (t : Text) (s₁ : Scan) (t₁ : Text) (u : Text) (new : List Token) : Prop where
  text : t = u ++ t₁
  offset : s₁.offset = s.offset + u.byteLength
  line : s₁.line = s.line + u.lineBreaks
  tokens : s₁.tokens = new ++ s.tokens
  groups : nestAll s.groups (kinds new.reverse) = some s₁.groups

theorem Advance.trans {u v : Text} {new new' : List Token} (h : Advance s t s₁ t₁ u new)
    (h' : Advance s₁ t₁ s₂ t₂ v new') : Advance s t s₂ t₂ (u ++ v) (new' ++ new) where
  text := by rw [h.text, h'.text, List.append_assoc]
  offset := by rw [h'.offset, h.offset, Text.byteLength_append, Nat.add_assoc]
  line := by rw [h'.line, h.line, Text.lineBreaks_append, Nat.add_assoc]
  tokens := by rw [h'.tokens, h.tokens, List.append_assoc]
  groups := by
    rw [List.reverse_append, kinds_append, nestAll_append, h.groups]
    exact h'.groups

theorem Step.advance (h : Step s t s₁ t₁) : ∃ u new, u ≠ [] ∧ Advance s t s₁ t₁ u new := by
  cases h with
  | blank => exact ⟨_, [], List.cons_ne_nil _ _, rfl, rfl, rfl, rfl, rfl⟩
  | @continued c t =>
    refine ⟨c :: (continuation t).1, [], List.cons_ne_nil _ _, ?_, rfl, rfl, rfl, rfl⟩
    rw [List.cons_append, continuation_append]
  | @comment t =>
    refine ⟨'%' :: (restOfLine t).1, [], List.cons_ne_nil _ _, ?_, rfl, rfl, rfl, rfl⟩
    rw [List.cons_append, restOfLine_append]
  | @token _ c t l hat hl ht =>
    obtain ⟨happ, hne⟩ := lexeme_append hl
    obtain ⟨gs, hn, rfl⟩ := Scan.take_eq_ok.1 ht
    rcases s.separated_cases c t.head? with hsep | ⟨-, hsep⟩
    · rw [hsep] at hn ⊢
      exact ⟨l.spelling, [_], hne, happ.symm, rfl, rfl, rfl, (nestAll_single _ _).trans hn⟩
    · rw [hsep] at hn ⊢
      exact ⟨l.spelling, [_, _], hne, happ.symm, rfl, rfl, rfl, (nestAll_single _ _).trans hn⟩

theorem Run.advance (h : Run s t s₁ t₁) : ∃ u new, Advance s t s₁ t₁ u new := by
  induction h with
  | nil => exact ⟨[], [], rfl, rfl, rfl, rfl, rfl⟩
  | cons hs _ ih =>
    obtain ⟨u, new, -, h⟩ := hs.advance
    obtain ⟨v, new', h'⟩ := ih
    exact ⟨u ++ v, new' ++ new, h.trans h'⟩

/-! ## Running before another rest -/

theorem Alike.startsContinuation (h : Alike t t') : startsContinuation t = startsContinuation t' := by
  -- the three characters in front decide, and the closing ones are no dots
  have hdots : ∀ t, Token.startsContinuation t =
      (t.head?.any (· == '.') && t.tail.head?.any (· == '.') && t.tail.tail.head?.any (· == '.')) := by
    intro t
    match t with
    | [] => rfl
    | [a] => simp [Token.startsContinuation]
    | [a, b] => simp [Token.startsContinuation]
    | a :: b :: c :: t =>
      by_cases ha : a = '.' <;> by_cases hb : b = '.' <;> by_cases hc : c = '.' <;>
        simp [Token.startsContinuation, ha, hb, hc]
  have hinner : Inner (· == '.') := by decide
  rw [hdots, hdots]
  cases h with
  | closed h h' => simp [h.any hinner, h'.any hinner]
  | assign => rfl
  | cons h =>
    cases h with
    | closed h h' => simp [h.any hinner, h'.any hinner]
    | assign => simp
    | cons h => simp [h.any hinner]

theorem restOfLine_of_break {v : Text} (hv : '\n' ∉ v) (h : rest = [] ∨ rest.head? = some '\n') :
    restOfLine (v ++ rest) = (v, rest) := by
  have hall : ∀ c ∈ v, decide (c ≠ '\n') = true := by
    intro c hc
    simp only [decide_eq_true_eq]
    rintro rfl
    exact hv hc
  unfold restOfLine
  rw [List.takeWhile_append_of_pos hall, List.dropWhile_append_of_pos hall]
  cases rest with
  | nil => simp
  | cons c rest =>
    obtain rfl : c = '\n' := by simpa using h
    simp

theorem restOfLine_eq {v : Text} (h : restOfLine t = (v, rest)) :
    '\n' ∉ v ∧ (rest = [] ∨ rest.head? = some '\n') := by
  simp only [restOfLine, Prod.mk.injEq] at h
  obtain ⟨rfl, rfl⟩ := h
  constructor
  · intro hm
    simpa using List.mem_takeWhile_imp hm
  · cases hd : t.dropWhile (· ≠ '\n') with
    | nil => exact .inl rfl
    | cons c r =>
      refine .inr ?_
      have := List.head?_dropWhile_not (· ≠ '\n') t
      rw [hd] at this
      simpa using this

theorem continuation_exchange {v : Text} (h : continuation (v ++ rest) = (v, rest))
    (hend : rest = [] → '\n' ∉ v → rest' = []) : continuation (v ++ rest') = (v, rest') := by
  unfold continuation at h
  split at h
  · next tail r heq =>
    cases h
    have hr := @restOfLine_of_break ('\n' :: rest') _ (restOfLine_eq heq).1 (.inr rfl)
    unfold continuation
    simp [hr]
  · next tail r hne heq =>
    cases h
    rcases (restOfLine_eq heq).2 with rfl | hr
    · obtain rfl := hend rfl (restOfLine_eq heq).1
      unfold continuation
      rw [heq]
    · cases rest with
      | nil => cases hr
      | cons c rest =>
        obtain rfl : c = '\n' := by simpa using hr
        exact (hne _ rfl).elim

/-- Only a sign looks at what closes a text to see whether an element begins. -/
theorem startsElement_closed (h : Closed t) (hc : c ≠ '+' ∧ c ≠ '-') :
    startsElement c t.head? = startsElement c none := by
  have hs : (decide (c = '+') || decide (c = '-')) = false := by simp [hc]
  simp only [startsElement, hs, Bool.false_eq_true, if_false]
  cases t with
  | nil => rfl
  | cons d t => rcases closed_cons.1 h with rfl | rfl | rfl <;> rfl

theorem Scan.separated_congr {n n' : Option Char} (h : startsElement c n = startsElement c n') :
    s.separated c n = s.separated c n' := by
  rw [Scan.separated, Scan.separated, h]

/-- A sign opens and closes no bracket. -/
theorem groups_of_sign {transposes : Bool} (hc : c = '+' ∨ c = '-')
    (hl : lexeme transposes c t = .ok l) (ht : s.take l = .ok s₁) : s₁.groups = s.groups := by
  have hk : l.kind = .plus ∨ l.kind = .minus := by
    rcases hc with rfl | rfl
    · exact .inl (by cases hl; rfl)
    · exact .inr (by cases hl; rfl)
  obtain ⟨gs, hn, rfl⟩ := Scan.take_eq_ok.1 ht
  rcases hk with hk | hk <;>
  · rw [hk] at hn
    cases hn
    rfl

theorem Scan.separated_groups (s : Scan) (c : Char) (next : Option Char) :
    (s.separated c next).groups = s.groups := by
  rcases s.separated_cases c next with h | ⟨-, h⟩ <;> rw [h]
  rfl

/-- A step goes the same way before another rest, if a continuation, a comment and a lexeme end there as well. -/
theorem Step.before (h : Step s (u ++ rest) s₁ rest)
    (hdots : u ≠ [] → startsContinuation (u ++ rest') = startsContinuation (u ++ rest))
    (hend : rest = [] → startsContinuation (u ++ rest) = true → '\n' ∉ u → rest' = [])
    (hbreak : u.head? = some '%' → rest' = [] ∨ rest'.head? = some '\n')
    (hsep : ∀ c v, u = c :: v → s.separated c (v ++ rest).head? = s.separated c (v ++ rest').head?)
    (hlex : ∀ transposes kind c v, u = c :: v → lexeme transposes c (v ++ rest) = .ok ⟨kind, c :: v, rest⟩ →
      lexeme transposes c (v ++ rest') = .ok ⟨kind, c :: v, rest'⟩) : Step s (u ++ rest') s₁ rest' := by
  generalize ht : u ++ rest = t at h
  cases h with
  | @blank c _ hc =>
    obtain rfl : u = [c] := List.append_cancel_right ht
    exact .blank hc
  | @continued c t hc =>
    obtain rfl := eq_cons_continuation ht
    have hx : continuation ((continuation t).1 ++ rest') = ((continuation t).1, rest') := by
      have hc' : c ≠ '\n' := by
        rintro rfl
        exact absurd hc (by simp [startsContinuation])
      refine @continuation_exchange (continuation t).2 rest' _ ?_ fun hr hv => ?_
      · rw [continuation_append]
      · exact hend hr (ht ▸ hc) (by simp [hv, hc'.symm])
    have hc' : startsContinuation (c :: ((continuation t).1 ++ rest')) = true := by
      have hsame := hdots (List.cons_ne_nil _ _)
      rw [ht] at hsame
      exact hsame.trans hc
    have := Step.continued (s := s) hc'
    rwa [hx] at this
  | @comment t =>
    obtain rfl := eq_cons_restOfLine ht
    have hx : restOfLine ((restOfLine t).1 ++ rest') = ((restOfLine t).1, rest') :=
      restOfLine_of_break (restOfLine_eq rfl).1 (hbreak rfl)
    have := Step.comment (s := s) (t := (restOfLine t).1 ++ rest')
    rwa [hx] at this
  | @token _ c t l hat hl hn =>
    obtain ⟨happ, hne⟩ := lexeme_append hl
    obtain rfl : u = l.spelling := List.append_cancel_right (ht.trans happ.symm)
    cases hu : l.spelling with
    | nil => exact (hne hu).elim
    | cons d v =>
      rw [hu] at hdots
      rw [hu, List.cons_append] at happ
      obtain ⟨rfl, rfl⟩ := List.cons.inj happ
      have hat' : AtLexeme d (v ++ rest') := ⟨hat.inked, (hdots (List.cons_ne_nil _ _)).trans hat.here, hat.code⟩
      rw [hsep d v hu] at hl hn
      have hl' : lexeme ((s.separated d (v ++ rest').head?).afterOperand && !s.spaced) d (v ++ rest') =
          .ok ⟨l.kind, d :: v, rest'⟩ := by
        refine hlex _ _ d v hu ?_
        rw [hl, ← hu]
      have hn' : (s.separated d (v ++ rest').head?).take ⟨l.kind, d :: v, rest'⟩ = .ok s₁ := by
        rw [← hn, ← hu]
        rfl
      exact .token hat' hl' hn'

/-- A step over a sign keeps the brackets that are open. -/
theorem Step.groups_of_sign (h : Step s (c :: t) s₁ t₁) (hc : c = '+' ∨ c = '-') : s₁.groups = s.groups := by
  cases h with
  | token _ hl ht => rw [Token.groups_of_sign hc hl ht, Scan.separated_groups]
  | _ => rfl

/-- A step goes the same way before a rest like its own. A continuation and a comment have to end
there too, and a sign in brackets has to be followed by the same character. -/
theorem Step.exchange (h : Step s (u ++ rest) s₁ rest) (ha : Alike rest rest')
    (hend : rest = [] → startsContinuation (u ++ rest) = true → '\n' ∉ u → rest' = [])
    (hbreak : u.head? = some '%' → rest' = [] ∨ rest'.head? = some '\n')
    (hg : rest.head? = rest'.head? ∨ s₁.groups = []) : Step s (u ++ rest') s₁ rest' := by
  have hsep : ∀ c v, u = c :: v → s.separated c (v ++ rest).head? = s.separated c (v ++ rest').head? := by
    rintro c v rfl
    cases v with
    | cons e v => rfl
    | nil =>
      rw [List.nil_append, List.nil_append]
      rcases ha.head with hh | ⟨hc, hc'⟩
      · rw [hh]
      by_cases hsign : c = '+' ∨ c = '-'
      · rcases hg with hh | hg
        · rw [hh]
        rw [h.groups_of_sign hsign] at hg
        rw [Scan.separated_of_groups hg, Scan.separated_of_groups hg]
      · have hsign : c ≠ '+' ∧ c ≠ '-' := by simpa using hsign
        refine Scan.separated_congr ?_
        rw [startsElement_closed hc hsign, startsElement_closed hc' hsign]
  refine h.before (fun _ => (ha.append u).startsContinuation.symm) hend hbreak hsep ?_
  rintro transposes kind c v rfl hl
  exact lexeme_exchange ha hl

/-- A comment reaches up to the end of its line. -/
theorem Step.break_of_comment (h : Step s (u ++ rest) s₁ rest) (hu : u.head? = some '%') :
    rest = [] ∨ rest.head? = some '\n' := by
  cases u with
  | nil => cases hu
  | cons c u =>
    obtain rfl : c = '%' := by simpa using hu
    generalize ht : '%' :: u ++ rest = t at h
    cases h with
    | blank hc =>
      obtain ⟨rfl, -⟩ := List.cons.inj ht
      exact absurd hc (by decide)
    | continued hc =>
      obtain ⟨rfl, -⟩ := List.cons.inj ht
      exact absurd hc (by simp [startsContinuation])
    | comment => exact (restOfLine_eq rfl).2
    | token hat =>
      obtain ⟨rfl, -⟩ := List.cons.inj ht
      exact (hat.code rfl).elim

theorem Run.eq_of_rest (h : Run s t s₁ t) : s₁ = s := by
  generalize ht : t = t' at h
  cases h with
  | nil => rfl
  | cons hs hr =>
    obtain ⟨u, _, hne, h₁⟩ := hs.advance
    obtain ⟨v, _, h₂⟩ := hr.advance
    have := List.length_pos_iff.2 hne
    have h₁ := congrArg List.length h₁.text
    have h₂ := congrArg List.length h₂.text
    simp only [List.length_append] at h₁ h₂
    omega

/-- What a turn and the run behind it pass is passed one behind the other. -/
theorem Step.split (hs : Step s t s₁ t₁) (hr : Run s₁ t₁ s₂ rest) (ht : u ++ rest = t) :
    ∃ u₀ u₁, u = u₀ ++ u₁ ∧ t₁ = u₁ ++ rest ∧ t = u₀ ++ (u₁ ++ rest) := by
  obtain ⟨u₀, _, -, h₀⟩ := hs.advance
  obtain ⟨u₁, _, h₁⟩ := hr.advance
  have ht₀ := h₀.text
  rw [h₁.text] at ht₀
  exact ⟨u₀, u₁, List.append_cancel_right (by rw [ht, ht₀, List.append_assoc]), h₁.text, ht₀⟩

/-- A run goes the same way before a rest like its own that goes on with neither nothing nor a line
break, if that is behind the brackets or begins the same. -/
theorem Run.exchange (h : Run s (u ++ rest) s₁ rest) (ha : Alike rest rest')
    (hrest : rest ≠ [] ∧ rest.head? ≠ some '\n') (hg : rest.head? = rest'.head? ∨ s₁.groups = []) :
    Run s (u ++ rest') s₁ rest' := by
  generalize ht : u ++ rest = t at h
  induction h generalizing u with
  | nil =>
    obtain rfl : u = [] := by simpa using ht
    exact .nil
  | @cons s s₁ s₂ t t₁ rest hs hr ih =>
    obtain ⟨u₀, u₁, rfl, rfl, rfl⟩ := hs.split hr ht
    rw [List.append_assoc]
    refine .cons (hs.exchange (ha.append u₁) (fun hnil _ _ => ?_) (fun hu => ?_) ?_) (ih ha hrest hg rfl)
    · exact (hrest.1 (List.append_eq_nil_iff.1 hnil).2).elim
    · have hb := hs.break_of_comment hu
      cases u₁ with
      | nil => exact (hb.elim hrest.1 hrest.2).elim
      | cons c u₁ => exact .inr (by simpa using hb)
    · cases u₁ with
      | nil => exact Run.eq_of_rest hr ▸ hg
      | cons c u₁ => exact .inl rfl

/-! ## Single characters -/

/-- A character that begins neither a numeral nor a name nor a string begins an operator. -/
theorem lexeme_eq {transposes : Bool} (hc : c.isDigit = false ∧ c.isAlpha = false)
    (hne : c ≠ '.' ∧ c ≠ '\x27' ∧ c ≠ '"') : lexeme transposes c t =
      match operator? c t.head? with
      | some (kind, true) => .ok ⟨kind, c :: t.take 1, t.drop 1⟩
      | some (kind, false) => .ok ⟨kind, [c], t⟩
      | none => .error (.unexpectedCharacter c) := by
  have hdigit : ¬ (c.isDigit || (c = '.' && t.head?.any Char.isDigit)) = true := by simp [hc, hne]
  have hquote : ¬ (c = '\x27' || c = '"') = true := by simp [hne]
  unfold lexeme
  refine (if_neg hdigit).trans ((if_neg ?_).trans ((if_neg ?_).trans ((if_neg hquote).trans rfl)))
  · simp [hc]
  · simp [hne]

theorem lexeme_newline (transposes : Bool) (t : Text) :
    lexeme transposes '\n' t = .ok ⟨.newline, ['\n'], t⟩ := by
  have ho : operator? '\n' t.head? = some (.newline, false) := by
    unfold operator?
    split <;> simp_all
  rw [lexeme_eq (by decide) (by decide), ho]

theorem lexeme_semicolon (transposes : Bool) (t : Text) :
    lexeme transposes ';' t = .ok ⟨.semicolon, [';'], t⟩ := by
  have ho : operator? ';' t.head? = some (.semicolon, false) := by
    unfold operator?
    split <;> simp_all
  rw [lexeme_eq (by decide) (by decide), ho]

theorem lexeme_assign (transposes : Bool) (h : t.head? ≠ some '=') :
    lexeme transposes '=' t = .ok ⟨.assign, ['='], t⟩ := by
  have ho : operator? '=' t.head? = some (.assign, false) := by
    unfold operator?
    split <;> simp_all
  rw [lexeme_eq (by decide) (by decide), ho]

theorem kind_of_equals {transposes : Bool} (h : lexeme transposes '=' t = .ok l) :
    l.kind = .assign ∨ l.kind = .equal := by
  by_cases ht : t.head? = some '='
  · have ho : operator? '=' t.head? = some (.equal, true) := by
      rw [ht]
      rfl
    rw [lexeme_eq (by decide) (by decide), ho] at h
    cases h
    exact .inr rfl
  · rw [lexeme_assign transposes ht] at h
    cases h
    exact .inl rfl

/-- The state behind a token of one character. -/
def Scan.after (s : Scan) (kind : TokenKind) (c : Char) : Scan :=
  ⟨s.line + Text.lineBreaks [c], s.offset + Text.byteLength [c], s.groups, false,
    ⟨kind, s.line, s.offset⟩ :: s.tokens⟩

/-- Outside brackets a character that is a token of its own is taken as it is. -/
theorem step_single {kind : TokenKind} (hg : s.groups = []) (hat : AtLexeme c t)
    (hl : ∀ transposes, lexeme transposes c t = .ok ⟨kind, [c], t⟩) (hk : nest [] kind = some []) :
    Step s (c :: t) (s.after kind c) t := by
  have hsettled : s.settledKind kind = kind := by simp [Scan.settledKind, Scan.concatenates, hg]
  refine .token hat (hl _) ?_
  rw [Scan.separated_of_groups hg]
  refine Scan.take_eq_ok.2 ⟨[], ?_, ?_⟩
  · rw [hg, hsettled]
    exact hk
  · rw [hsettled, Scan.after, hg]

theorem step_newline (hg : s.groups = []) : Step s ('\n' :: t) (s.after .newline '\n') t :=
  step_single hg ⟨by decide, rfl, by decide⟩ (fun _ => lexeme_newline _ t) rfl

theorem step_semicolon (hg : s.groups = []) : Step s (';' :: t) (s.after .semicolon ';') t :=
  step_single hg ⟨by decide, rfl, by decide⟩ (fun _ => lexeme_semicolon _ t) rfl

theorem step_assign (hg : s.groups = []) (h : t.head? ≠ some '=') :
    Step s ('=' :: t) (s.after .assign '=') t :=
  step_single hg ⟨by decide, rfl, by decide⟩ (fun _ => lexeme_assign _ h) rfl

/-- A scan has one way to go. -/
theorem Step.unique (h : Step s t s₁ t₁) (h' : Step s t s₂ t₂) : s₁ = s₂ ∧ t₁ = t₂ := by
  cases h with
  | blank hc =>
    cases h' with
    | blank => exact ⟨rfl, rfl⟩
    | continued hd => simp [isSpace_of_continuation hd] at hc
    | comment => exact absurd hc (by decide)
    | token hat => simp [hat.inked] at hc
  | continued hc =>
    cases h' with
    | blank hd => simp [isSpace_of_continuation hc] at hd
    | continued => exact ⟨rfl, rfl⟩
    | comment => exact absurd hc (by simp [startsContinuation])
    | token hat => simp [hat.here] at hc
  | comment =>
    cases h' with
    | blank hd => exact absurd hd (by decide)
    | continued hd => exact absurd hd (by simp [startsContinuation])
    | comment => exact ⟨rfl, rfl⟩
    | token hat => exact (hat.code rfl).elim
  | token hat hl ht =>
    cases h' with
    | blank hd => simp [hat.inked] at hd
    | continued hd => simp [hat.here] at hd
    | comment => exact (hat.code rfl).elim
    | token _ hl' ht' =>
      rw [hl] at hl'
      cases hl'
      rw [ht] at ht'
      cases ht'
      exact ⟨rfl, rfl⟩

/-! ## A line break behind the last line -/

theorem alike_append (h : Closed u) (t : Text) : Alike t (t ++ u) := by
  induction t with
  | nil => exact .closed closed_nil h
  | cons c t ih => exact .cons ih

theorem closed_break : Closed ['\n'] := closed_cons.2 (.inl rfl)

/-- A continuation at the end of a script takes a line break behind it. -/
theorem step_continued_break (hc : startsContinuation (c :: t) = true) (hn : '\n' ∉ t) :
    Step s (c :: t ++ ['\n']) { s.pass (c :: t ++ ['\n']) with spaced := true } [] := by
  have hx : continuation (t ++ ['\n']) = (t ++ ['\n'], []) := by
    unfold continuation
    simp [restOfLine_of_break hn (.inr (rfl : List.head? ['\n'] = some '\n'))]
  have hc' : startsContinuation (c :: (t ++ ['\n'])) = true :=
    (alike_append closed_break (c :: t)).startsContinuation.symm.trans hc
  have := Step.continued (s := s) hc'
  rwa [hx] at this

/-- With a line break behind its last line a script has the same tokens and perhaps one that
separates statements. -/
theorem Run.endLine (h : Run s t s₁ []) (hg : s₁.groups = []) :
    ∃ s₂ extra, Run s (t ++ ['\n']) s₂ [] ∧ s₂.groups = [] ∧ s₂.tokens = extra ++ s₁.tokens ∧
      ∀ x ∈ extra, x.kind.separates = true := by
  generalize hnil : ([] : Text) = last at h
  induction h with
  | @nil s t =>
    subst hnil
    refine ⟨_, [⟨.newline, s.line, s.offset⟩], .single (step_newline hg), hg, rfl, ?_⟩
    simp [TokenKind.separates]
  | @cons s s₁ s₂ t t₁ last hs hr ih =>
    subst hnil
    obtain ⟨u, _, -, hu⟩ := hs.advance
    have ht := hu.text
    by_cases hend : t₁ = [] ∧ startsContinuation t = true ∧ '\n' ∉ u
    · -- the break belongs to the continuation that the script ends in
      obtain ⟨rfl, hc, hn⟩ := hend
      obtain ⟨rfl, -⟩ := hr.of_nil
      obtain rfl : t = u := by simpa using ht
      cases t with
      | nil => cases hs
      | cons c t =>
        obtain ⟨rfl, -⟩ := hs.unique (.continued hc)
        have hn : '\n' ∉ t := fun hm => hn (List.mem_cons_of_mem c hm)
        exact ⟨_, [], .single (step_continued_break hc hn), hg, rfl, by simp⟩
    · obtain ⟨s₃, extra, hr', hg', htok, hsep⟩ := ih hg rfl
      refine ⟨s₃, extra, .cons ?_ hr', hg', htok, hsep⟩
      rw [ht] at hs ⊢
      rw [List.append_assoc]
      refine hs.exchange (alike_append closed_break t₁) (fun hnil hc hn => ?_) (fun hc => ?_) ?_
      · exact (hend ⟨hnil, ht ▸ hc, hn⟩).elim
      · rcases hs.break_of_comment hc with rfl | hb
        · exact .inr rfl
        · exact .inr (by rw [List.head?_append, hb, Option.some_or])
      · cases t₁ with
        | nil => exact .inr (hr.of_nil.1 ▸ hg)
        | cons c t₁ => exact .inl rfl

/-! ## Running from another state -/

/-- Two states that lexemes cannot tell apart and that have collected the same kinds of tokens since
they had these. -/
structure Similar (old old' : List Token) (s s' : Scan) : Prop where
  groups : s.groups = s'.groups
  operand : s.afterOperand = s'.afterOperand
  spaced : s.afterOperand = true → s.spaced = s'.spaced
  gained : ∃ new new', s.tokens = new ++ old ∧ s'.tokens = new' ++ old' ∧ kinds new = kinds new'

variable {old old' : List Token}

theorem Similar.concatenates (h : Similar old old' s s') : s.concatenates = s'.concatenates := by
  rw [Scan.concatenates, Scan.concatenates, h.groups]

theorem Similar.emit (h : Similar old old' s s') {kind : TokenKind} {line line' offset offset' : Nat} :
    ∃ new new', ⟨kind, line, offset⟩ :: s.tokens = new ++ old ∧
      ⟨kind, line', offset'⟩ :: s'.tokens = new' ++ old' ∧ kinds new = kinds new' := by
  obtain ⟨new, new', hn, hn', hk⟩ := h.gained
  refine ⟨⟨kind, line, offset⟩ :: new, ⟨kind, line', offset'⟩ :: new', ?_, ?_, ?_⟩
  · rw [hn]
    rfl
  · rw [hn']
    rfl
  · rw [kinds_cons, kinds_cons, hk]

theorem Similar.separated (h : Similar old old' s s') (c : Char) (next : Option Char) :
    Similar old old' (s.separated c next) (s'.separated c next) := by
  have hcond : (s.spaced && s.concatenates && s.afterOperand && startsElement c next) =
      (s'.spaced && s'.concatenates && s'.afterOperand && startsElement c next) := by
    rw [← h.concatenates, ← h.operand]
    cases ho : s.afterOperand with
    | true => rw [h.spaced ho]
    | false => simp
  unfold Scan.separated
  rw [hcond]
  split
  · exact ⟨h.groups, rfl, nofun, h.emit⟩
  · exact h

/-- An apostrophe transposes in both states or in none. -/
theorem Similar.transposes (h : Similar old old' s s') (c : Char) (next : Option Char) :
    ((s.separated c next).afterOperand && !s.spaced) =
      ((s'.separated c next).afterOperand && !s'.spaced) := by
  rw [← (h.separated c next).operand]
  cases ho : (s.separated c next).afterOperand with
  | false => rfl
  | true =>
    rcases s.separated_cases c next with hs | ⟨-, hs⟩
    · rw [hs] at ho
      rw [h.spaced ho]
    · rw [hs] at ho
      cases ho

theorem Similar.take (h : Similar old old' s s') (ht : s.take l = .ok s₁) :
    ∃ s₁', s'.take l = .ok s₁' ∧ Similar old old' s₁ s₁' := by
  obtain ⟨gs, hn, rfl⟩ := Scan.take_eq_ok.1 ht
  have hk : s.settledKind l.kind = s'.settledKind l.kind := by
    rw [Scan.settledKind, Scan.settledKind, h.concatenates]
  rw [h.groups, hk] at hn
  refine ⟨_, Scan.take_eq_ok.2 ⟨gs, hn, rfl⟩, rfl, ?_, fun _ => rfl, ?_⟩
  · rw [hk]
    rfl
  · rw [hk]
    exact h.emit

theorem Similar.step (h : Similar old old' s s') (hs : Step s t s₁ t₁) :
    ∃ s₁', Step s' t s₁' t₁ ∧ Similar old old' s₁ s₁' := by
  cases hs with
  | blank hc => exact ⟨_, .blank hc, h.groups, h.operand, fun _ => rfl, h.gained⟩
  | continued hc => exact ⟨_, .continued hc, h.groups, h.operand, fun _ => rfl, h.gained⟩
  | comment => exact ⟨_, .comment, h.groups, h.operand, h.spaced, h.gained⟩
  | @token _ c t l hat hl ht =>
    obtain ⟨s₁', ht', h'⟩ := (h.separated c t.head?).take ht
    rw [h.transposes] at hl
    exact ⟨s₁', .token hat hl ht', h'⟩

/-- From states that lexemes cannot tell apart the same text gives the same kinds of tokens. -/
theorem Run.mirror (hr : Run s t s₁ t₁) (h : Similar old old' s s') :
    ∃ s₁', Run s' t s₁' t₁ ∧ Similar old old' s₁ s₁' := by
  induction hr generalizing s' with
  | nil => exact ⟨s', .nil, h⟩
  | cons hs _ ih =>
    obtain ⟨s₂, hs', h₂⟩ := h.step hs
    obtain ⟨s₁', hr', h₁⟩ := ih h₂
    exact ⟨s₁', .cons hs' hr', h₁⟩

/-! ## The place of a token -/

theorem Scan.separated_tokens (s : Scan) (c : Char) (next : Option Char) :
    (s.separated c next).tokens = s.tokens ∨
      (s.separated c next).tokens = ⟨.comma, s.line, s.offset⟩ :: s.tokens := by
  rcases s.separated_cases c next with h | ⟨-, h⟩ <;> rw [h]
  · exact .inl rfl
  · exact .inr rfl

/-- The token of a lexeme stands where the lexeme starts. -/
theorem Scan.tokens_of_take {next : Option Char} (h : (s.separated c next).take l = .ok s₁) :
    ∃ kind, s₁.tokens = ⟨kind, s.line, s.offset⟩ :: (s.separated c next).tokens := by
  obtain ⟨gs, -, rfl⟩ := Scan.take_eq_ok.1 h
  rcases s.separated_cases c next with hs | ⟨-, hs⟩ <;> rw [hs] <;> exact ⟨_, rfl⟩

/-- A token that a run has collected, but for a comma, was taken at a turn of the run. -/
theorem Run.reach (h : Run s t s₁ t₁) {later earlier : List Token} {x : Token}
    (htok : s₁.tokens = later ++ x :: earlier) (hx : x.kind ≠ .comma)
    (hs : s.tokens.length ≤ earlier.length) :
    ∃ s₂ c v s₃ t₃, Run s t s₂ (c :: v) ∧ Step s₂ (c :: v) s₃ t₃ ∧ Run s₃ t₃ s₁ t₁ ∧
      (s₂.separated c v.head?).tokens = earlier ∧ s₃.tokens = x :: earlier ∧ x.offset = s₂.offset ∧
      x.line = s₂.line := by
  induction h with
  | nil =>
    rw [htok] at hs
    simp at hs
    omega
  | @cons s s₂ s₁ t t₂ t₁ hstep hr ih =>
    by_cases hlen : s₂.tokens.length ≤ earlier.length
    · obtain ⟨s₃, c, v, s₄, t₄, hr₁, h⟩ := ih htok hlen
      exact ⟨s₃, c, v, s₄, t₄, .cons hstep hr₁, h⟩
    -- the turn has added the token, if not a comma in front of it
    obtain ⟨w, new, hadv⟩ := hr.advance
    have hsuf : x :: earlier <:+ s₂.tokens := by
      refine List.suffix_of_suffix_length_le ⟨later, htok.symm⟩ ⟨new, hadv.tokens.symm⟩ ?_
      simp only [List.length_cons]
      omega
    cases hstep with
    | blank => exact (hlen hs).elim
    | continued => exact (hlen hs).elim
    | comment => exact (hlen hs).elim
    | @token _ c t l hat hl ht =>
      obtain ⟨kind, hkind⟩ := Scan.tokens_of_take ht
      have hlast : x :: earlier = ⟨kind, s.line, s.offset⟩ :: (s.separated c t.head?).tokens := by
        rw [hkind] at hsuf
        refine (List.suffix_cons_iff.1 hsuf).resolve_right fun hsuf => ?_
        rcases s.separated_tokens c t.head? with hsep | hsep
        · rw [hsep] at hsuf
          exact absurd hsuf.length_le (by simp only [List.length_cons]; omega)
        · rw [hsep] at hsuf
          rcases List.suffix_cons_iff.1 hsuf with heq | hsuf
          · obtain ⟨rfl, -⟩ := List.cons.inj heq
            exact hx rfl
          · exact absurd hsuf.length_le (by simp only [List.length_cons]; omega)
      obtain ⟨rfl, rfl⟩ := List.cons.inj hlast
      exact ⟨s, c, t, s₂, l.rest, .nil, .token hat hl ht, hr, rfl, hkind, rfl, rfl⟩

/-! ## Outside brackets -/

/-- The open brackets are those that the tokens leave open. -/
def WellNested (s : Scan) : Prop := nestAll [] (kinds s.tokens.reverse) = some s.groups

theorem wellNested_start : WellNested .start := rfl

theorem Run.wellNested (h : Run s t s₁ t₁) (hs : WellNested s) : WellNested s₁ := by
  obtain ⟨u, new, ha⟩ := h.advance
  rw [WellNested, ha.tokens, List.reverse_append, kinds_append, nestAll_append, hs]
  exact ha.groups

/-- A turn outside brackets that adds a token takes a lexeme of its kind. -/
theorem Step.outside (h : Step s (c :: t) s₁ t₁) (hg : s.groups = []) {x : Token}
    (htok : s₁.tokens = x :: s.tokens) :
    ∃ l gs, lexeme (s.afterOperand && !s.spaced) c t = .ok l ∧ x = ⟨l.kind, s.line, s.offset⟩ ∧
      nest [] l.kind = some gs ∧ t₁ = l.rest ∧
      s₁ = ⟨s.line + l.spelling.lineBreaks, s.offset + l.spelling.byteLength, gs, false, x :: s.tokens⟩ := by
  have hgrow : s.tokens.length < s₁.tokens.length := by
    rw [htok]
    exact Nat.lt_succ_self _
  cases h with
  | blank => exact (Nat.lt_irrefl _ hgrow).elim
  | continued => exact (Nat.lt_irrefl _ hgrow).elim
  | comment => exact (Nat.lt_irrefl _ hgrow).elim
  | @token _ _ _ l hat hl ht =>
    rw [Scan.separated_of_groups hg] at hl ht
    obtain ⟨gs, hn, rfl⟩ := Scan.take_eq_ok.1 ht
    have hsettled : s.settledKind l.kind = l.kind := by simp [Scan.settledKind, Scan.concatenates, hg]
    rw [hsettled] at htok hn ⊢
    rw [hg] at hn
    obtain ⟨rfl, -⟩ := List.cons.inj htok
    exact ⟨l, gs, hl, rfl, hn, rfl, rfl⟩

/-- A token that assigns or separates is one character. -/
theorem Step.sign (h : Step s (c :: t) s₁ t₁) (hg : s.groups = []) {x : Token}
    (htok : s₁.tokens = x :: s.tokens) (hx : x.kind = .assign ∨ x.kind.separates = true) :
    Sign c x.kind ∧ t₁ = t ∧ s₁ = s.after x.kind c := by
  obtain ⟨l, gs, hl, rfl, hn, rfl, rfl⟩ := h.outside hg htok
  obtain ⟨hsign, hspell, hrest⟩ := sign_of_lexeme hl hx
  have hgs : gs = [] := by
    cases hk : l.kind with
    | assign | newline | semicolon | comma =>
      rw [hk] at hn
      exact (Option.some.inj hn).symm
    | _ =>
      rw [hk] at hx
      rcases hx with hx | hx <;> cases hx
  refine ⟨hsign, hrest, ?_⟩
  rw [hspell, hgs, Scan.after, hg]

/-- A token behind balanced ones, but for a comma, was taken outside brackets. -/
theorem Run.reachOutside (h : Run s t s₁ t₁) (hs : WellNested s) {front rest : List Token} {x : Token}
    (htok : s₁.tokens.reverse = front ++ x :: rest) (hx : x.kind ≠ .comma)
    (hb : nestAll [] (kinds front) = some []) (hlen : s.tokens.length ≤ front.length) :
    ∃ s₂ c v s₃ t₃, Run s t s₂ (c :: v) ∧ Step s₂ (c :: v) s₃ t₃ ∧ Run s₃ t₃ s₁ t₁ ∧ WellNested s₂ ∧
      s₂.groups = [] ∧ s₂.tokens = front.reverse ∧ s₃.tokens = x :: s₂.tokens ∧ x.offset = s₂.offset ∧
      x.line = s₂.line := by
  have htok' : s₁.tokens = rest.reverse ++ x :: front.reverse := by
    rw [← List.reverse_reverse s₁.tokens, htok]
    simp
  obtain ⟨s₂, c, v, s₃, t₃, hr, hstep, hr', hsep, hs₃, ho, hl⟩ := h.reach htok' hx (by simpa using hlen)
  have hnest := hr.wellNested hs
  have hg : s₂.groups = [] := by
    -- a comma that blanks stand for does not change which brackets are open
    have hfront : nestAll [] (kinds (s₂.separated c v.head?).tokens.reverse) = some [] := by
      rw [hsep, List.reverse_reverse]
      exact hb
    rcases s₂.separated_tokens c v.head? with htokens | htokens
    · rw [htokens, hnest] at hfront
      exact Option.some.inj hfront
    · rw [htokens, List.reverse_cons, kinds_append, nestAll_append, hnest] at hfront
      exact Option.some.inj hfront
  rw [Scan.separated_of_groups hg] at hsep
  exact ⟨s₂, c, v, s₃, t₃, hr, hstep, hr', hnest, hg, hsep, hsep ▸ hs₃, ho, hl⟩

end Token

end ConfigScript
