import ConfigScript.Proofs.Masking
import ConfigScript.Proofs.Values
/-!
# Masks and lexemes

The mask is scanned character by character and the tokens lexeme by lexeme. In a script without
transposes both see the same strings, comments and continuations, so the mask goes over a lexeme as
over a whole (`lexeme_masked`). A piece without brackets and ends leaves the count of brackets as it is
and shows no semicolon (`Passes`); a bracket is counted, and a semicolon is shown where no bracket is
open (`Mirrors`).
-/

namespace ConfigScript

namespace Edit

open Token Mask
open Program (nest)

variable {m : State} {t u rest : Text} {c : Char} {l : Lexeme}

/-- What masking from this state on and unmasking make of a text. -/
def reveal (m : State) (t : Text) : Text := unmask (apply (scan m t) t)

theorem reveal_dots (h : m.code = true) (t : Text) :
    reveal m ('.' :: '.' :: '.' :: t) = ' ' :: ' ' :: ' ' :: reveal m.continued t := by
  have hscan : scan m ('.' :: '.' :: '.' :: t) =
      ⟨false, true⟩ :: ⟨false, true⟩ :: ⟨false, true⟩ :: scan m.continued t := by
    rw [Mask.scan, if_pos h]
  rw [reveal, hscan]
  rfl

theorem scan_of_not_dots (h : ¬ (m.code = true ∧ startsContinuation (c :: t) = true)) :
    scan m (c :: t) = m.mark c :: scan (m.next c) t := by
  rw [Mask.scan.eq_def m (c :: t)]
  split
  · next heq => cases heq
  · next heq =>
    cases heq
    rw [if_neg fun hc => h ⟨hc, rfl⟩]
  · next heq =>
    cases heq
    rfl

theorem unmask_append (t u : Text) : unmask (t ++ u) = unmask t ++ unmask u := List.map_append

theorem reveal_cons (h : ¬ (m.code = true ∧ startsContinuation (c :: t) = true)) (hm : m.continuation = false)
    (hc : c ≠ sentinel) : reveal m (c :: t) = c :: reveal (m.next c) t := by
  have hone : unmask (applyTo (m.mark c) c) = [c] := by
    unfold applyTo
    rw [show (m.mark c).blank = m.continuation from rfl, hm, if_neg (by decide)]
    split
    · next hp =>
      have hsemi : c = ';' := by
        simp only [State.mark, Bool.and_eq_true, decide_eq_true_eq] at hp
        exact hp.1
      rw [hsemi]
      rfl
    · simp [unmask, hc]
  rw [reveal, scan_of_not_dots h]
  show unmask (applyTo (m.mark c) c ++ apply (scan (m.next c) t) t) = _
  rw [unmask_append, hone]
  rfl

/-! ## Semicolons that are shown -/

/-- Where a character stands in a text with this offset, in bytes. -/
def offsetsOf (c : Char) (offset : Nat) : Text → List Nat
  | [] => []
  | d :: t => (if d = c then [offset] else []) ++ offsetsOf c (offset + d.utf8Size) t

theorem mem_offsetsOf {o offset : Nat} : o ∈ offsetsOf c offset t ↔
    ∃ front back, t = front ++ c :: back ∧ o = offset + Text.byteLength front := by
  induction t generalizing offset with
  | nil => simp [offsetsOf]
  | cons d t ih =>
    rw [offsetsOf, List.mem_append, ih]
    constructor
    · rintro (ho | ⟨front, back, rfl, rfl⟩)
      · split at ho
        · next hd =>
          rw [List.mem_singleton.1 ho, hd]
          exact ⟨[], t, rfl, rfl⟩
        · cases ho
      · exact ⟨d :: front, back, rfl, by rw [Text.byteLength, Nat.add_assoc]⟩
    · rintro ⟨front, back, heq, rfl⟩
      cases front with
      | nil =>
        obtain ⟨rfl, rfl⟩ := List.cons.inj heq
        simp [Text.byteLength]
      | cons e front =>
        obtain ⟨rfl, rfl⟩ := List.cons.inj heq
        exact .inr ⟨front, back, rfl, by rw [Text.byteLength, Nat.add_assoc]⟩

theorem offsetsOf_append (offset : Nat) (t u : Text) :
    offsetsOf c offset (t ++ u) = offsetsOf c offset t ++ offsetsOf c (offset + Text.byteLength t) u := by
  induction t generalizing offset with
  | nil => rfl
  | cons d t ih => rw [List.cons_append, offsetsOf, offsetsOf, ih, List.append_assoc, Text.byteLength, Nat.add_assoc]

theorem offsetsOf_blanks (hc : c ≠ ' ') (offset n : Nat) : offsetsOf c offset (List.replicate n ' ') = [] := by
  induction n generalizing offset with
  | zero => rfl
  | succ n ih => rw [List.replicate_succ, offsetsOf, if_neg hc.symm, ih, List.nil_append]

/-- Where masking from this state on shows a semicolon. -/
def shown (m : State) (offset : Nat) (t : Text) : List Nat := offsetsOf ';' offset (apply (scan m t) t)

theorem shown_dots (h : m.code = true) (offset : Nat) (t : Text) :
    shown m offset ('.' :: '.' :: '.' :: t) = shown m.continued (offset + Text.byteLength ['.', '.', '.']) t := by
  have hscan : scan m ('.' :: '.' :: '.' :: t) =
      ⟨false, true⟩ :: ⟨false, true⟩ :: ⟨false, true⟩ :: scan m.continued t := by
    rw [Mask.scan, if_pos h]
  rw [shown, hscan]
  rfl

theorem shown_cons (h : ¬ (m.code = true ∧ startsContinuation (c :: t) = true)) (offset : Nat) :
    shown m offset (c :: t) = (if c = ';' ∧ m.mark c = ⟨false, false⟩ then [offset] else []) ++
      shown (m.next c) (offset + c.utf8Size) t := by
  have hone : offsetsOf ';' offset (applyTo (m.mark c) c) =
      if c = ';' ∧ m.mark c = ⟨false, false⟩ then [offset] else [] := by
    cases m.mark c with
    | mk protect blank =>
      cases blank with
      | true => simp [applyTo, offsetsOf_blanks]
      | false =>
        cases protect with
        | true => simp [applyTo, offsetsOf, sentinel]
        | false => simp [applyTo, offsetsOf]
  rw [shown, scan_of_not_dots h]
  show offsetsOf ';' offset (applyTo (m.mark c) c ++ apply (scan (m.next c) t) t) = _
  rw [offsetsOf_append, hone, byteLength_applyTo (fits_mark m c)]
  rfl

/-- The mask goes from the first state over a piece of text to the second one, leaves brackets as they
are and shows no semicolon of the piece. Masked and unmasked, the piece is `out`. -/
structure Passes (m : State) (u rest out : Text) (m' : State) : Prop where
  reveal : Edit.reveal m (u ++ rest) = out ++ Edit.reveal m' rest
  depth : m'.depth = m.depth
  shown : ∀ offset, Edit.shown m offset (u ++ rest) = Edit.shown m' (offset + Text.byteLength u) rest

theorem Passes.nil (m : State) (rest : Text) : Passes m [] rest [] m := ⟨rfl, rfl, fun _ => rfl⟩

variable {out : Text} {m' : State}

theorem Passes.cons (hp : Passes (m.next c) u rest out m')
    (hdots : ¬ (m.code = true ∧ startsContinuation (c :: (u ++ rest)) = true)) (hm : m.continuation = false)
    (hc : c ≠ sentinel) (hdepth : (m.next c).depth = m.depth) (hhidden : c = ';' → m.mark c ≠ ⟨false, false⟩) :
    Passes m (c :: u) rest (c :: out) m' where
  reveal := by rw [List.cons_append, reveal_cons hdots hm hc, hp.reveal, List.cons_append]
  depth := hp.depth.trans hdepth
  shown offset := by
    rw [List.cons_append, shown_cons hdots, if_neg fun h => hhidden h.1 h.2, List.nil_append, hp.shown,
      Text.byteLength, Nat.add_assoc]

/-- A semicolon in a string or a comment is not shown. -/
theorem mark_of_not_code (h : m.code = false) (hc : c = ';') : m.mark c ≠ ⟨false, false⟩ := by
  subst hc
  intro heq
  have hp : (m.mark ';').protect = false := by rw [heq]
  have hno : m.string.isSome = false ∧ m.comment = false := by
    simp only [State.mark, decide_true, Bool.true_and, Bool.or_eq_false_iff] at hp
    exact ⟨hp.1.1, hp.2⟩
  have hnone : m.string.isNone = true := by simpa using hno.1
  simp [State.code, hnone, hno.2] at h

/-! ## Continuations -/

/-- The mask goes through a continuation. -/
structure Continuing (m : State) : Prop where
  comment : m.comment = true
  string : m.string = none
  continuation : m.continuation = true

/-- The mask is in code, and in no continuation. -/
structure Plain (m : State) : Prop where
  comment : m.comment = false
  string : m.string = none
  continuation : m.continuation = false

theorem plain_start : Plain .start := ⟨rfl, rfl, rfl⟩

theorem Plain.code (h : Plain m) : m.code = true := by
  simp [State.code, h.comment, h.string]

theorem Plain.continued (h : Plain m) : Continuing m.continued := ⟨rfl, h.string, rfl⟩

/-- In a comment or a continuation only a line break changes the state. -/
theorem next_of_comment (h : m.comment = true) (hc : c ≠ '\n') : m.next c = m := by
  obtain ⟨comment, string, depth, continuation⟩ := m
  subst h
  simp [State.next, State.afterQuote, State.afterBreak, State.afterCode, State.code, hc]

/-- Behind a line break the mask is in code. -/
theorem plain_next_break (m : State) : Plain (m.next '\n') := by
  refine ⟨?_, ?_, ?_⟩ <;> simp [State.next, State.afterQuote, State.afterBreak, State.afterCode]

/-- Only a line break ends a continuation. -/
theorem continuation_next (m : State) (c : Char) :
    (m.next c).continuation = (m.continuation && decide (c ≠ '\n')) := by
  have hquote : (m.afterQuote c).continuation = m.continuation := by
    unfold State.afterQuote
    split
    · split
      · rfl
      · split <;> rfl
    · rfl
  have hcode : ∀ m : State, (m.afterCode c).continuation = m.continuation := by
    intro m
    unfold State.afterCode
    split
    · rfl
    split
    · rfl
    split <;> rfl
  rw [State.next, hcode]
  unfold State.afterBreak
  split
  · next hc => simp [hc]
  · next hc => simp [hquote, hc]

theorem unmask_replicate (n : Nat) : unmask (List.replicate n ' ') = List.replicate n ' ' := by
  simp [unmask, sentinel]

theorem Continuing.passes_cons (h : Continuing m) (hp : Passes (m.next c) u rest out m')
    (hdepth : (m.next c).depth = m.depth) :
    Passes m (c :: u) rest (List.replicate c.utf8Size ' ' ++ out) m' where
  reveal := by
    have hone : applyTo (m.mark c) c = List.replicate c.utf8Size ' ' := by
      unfold applyTo
      rw [show (m.mark c).blank = m.continuation from rfl, h.continuation]
      rfl
    rw [List.cons_append, Edit.reveal, scan_of_not_dots (by simp [State.code, h.comment])]
    show unmask (applyTo (m.mark c) c ++ apply (scan (m.next c) (u ++ rest)) (u ++ rest)) = _
    rw [unmask_append, hone, unmask_replicate, List.append_assoc, ← hp.reveal]
    rfl
  depth := hp.depth.trans hdepth
  shown offset := by
    have hcode : m.code = false := by simp [State.code, h.comment]
    rw [List.cons_append, shown_cons (by simp [hcode]), if_neg fun hc => mark_of_not_code hcode hc.1 hc.2,
      List.nil_append, hp.shown, Text.byteLength, Nat.add_assoc]

theorem continuation_cons (hc : c ≠ '\n') (t : Text) :
    continuation (c :: t) = (c :: (continuation t).1, (continuation t).2) := by
  have hend := restOfLine_end t
  unfold continuation
  rw [restOfLine_cons hc]
  cases hline : restOfLine t with
  | mk line rest =>
    rw [hline] at hend
    obtain rfl | ⟨u, rfl⟩ := hend <;> rfl

/-- A continuation becomes blanks of its length, and behind it the mask is in code. -/
theorem Continuing.passes (h : Continuing m) (t : Text) : ∃ m', Plain m' ∧
    Passes m (Token.continuation t).1 (Token.continuation t).2
      (List.replicate (Text.byteLength (Token.continuation t).1) ' ') m' := by
  induction t generalizing m with
  | nil => exact ⟨⟨false, none, m.depth, false⟩, ⟨rfl, rfl, rfl⟩, rfl, rfl, fun _ => rfl⟩
  | cons c t ih =>
    by_cases hc : c = '\n'
    · subst hc
      have hdepth : (m.next '\n').depth = m.depth := by
        simp [State.next, State.afterQuote, State.afterBreak, State.afterCode, h.continuation]
      refine ⟨_, plain_next_break m, ?_⟩
      have hp := h.passes_cons (Passes.nil (m.next '\n') t) hdepth
      simpa [Token.continuation, restOfLine, Text.byteLength] using hp
    · rw [continuation_cons hc]
      obtain ⟨m', hm', hp⟩ := ih h
      refine ⟨m', hm', ?_⟩
      rw [Text.byteLength, ← List.replicate_append_replicate]
      have hnext := next_of_comment h.comment hc
      exact h.passes_cons (hnext.symm ▸ hp) (by rw [hnext])

/-! ## Strings -/

/-- The mask goes through a string. -/
structure Quoting (delimiter : Char) (m : State) : Prop where
  comment : m.comment = false
  string : m.string = some delimiter
  continuation : m.continuation = false

def IsQuote (c : Char) : Prop := c = '\x27' ∨ c = '"'

theorem Plain.next_quote_eq (h : Plain m) (hc : IsQuote c) : m.next c = { m with string := some c } := by
  obtain ⟨comment, string, depth, continuation⟩ := m
  obtain ⟨rfl, rfl, rfl⟩ := h
  rcases hc with rfl | rfl <;> simp [State.next, State.afterQuote, State.afterBreak, State.afterCode]

theorem Plain.next_quote (h : Plain m) (hc : IsQuote c) : Quoting c (m.next c) := by
  rw [h.next_quote_eq hc]
  exact ⟨h.comment, rfl, h.continuation⟩

theorem Quoting.next_quote_eq (h : Quoting c m) (hc : IsQuote c) : m.next c = { m with string := none } := by
  obtain ⟨comment, string, depth, continuation⟩ := m
  obtain ⟨rfl, rfl, rfl⟩ := h
  rcases hc with rfl | rfl <;> simp [State.next, State.afterQuote, State.afterBreak, State.afterCode]

theorem Quoting.next_quote (h : Quoting c m) (hc : IsQuote c) : Plain (m.next c) := by
  rw [h.next_quote_eq hc]
  exact ⟨h.comment, rfl, h.continuation⟩

theorem Quoting.next {delimiter : Char} (h : Quoting delimiter m) (hc : c ≠ delimiter) (hn : c ≠ '\n') :
    m.next c = m := by
  obtain ⟨comment, string, depth, continuation⟩ := m
  obtain ⟨rfl, rfl, rfl⟩ := h
  simp [State.next, State.afterQuote, State.afterBreak, State.afterCode, State.code, hc.symm, hn]

theorem Quoting.code {delimiter : Char} (h : Quoting delimiter m) : m.code = false := by
  simp [State.code, h.string]

theorem Quoting.passes_cons {delimiter : Char} (h : Quoting delimiter m) (hp : Passes (m.next c) u rest out m')
    (hc : c ≠ sentinel) (hdepth : (m.next c).depth = m.depth) : Passes m (c :: u) rest (c :: out) m' :=
  hp.cons (by simp [h.code]) h.continuation hc hdepth (mark_of_not_code h.code)

/-- A quote opens and closes no bracket. -/
theorem depth_next_quote (hc : IsQuote c) (m : State) : (m.next c).depth = m.depth := by
  have hquote : (m.afterQuote c).depth = m.depth := by
    unfold State.afterQuote
    split
    · split
      · rfl
      · split <;> rfl
    · rfl
  rcases hc with rfl | rfl <;> simpa [State.next, State.afterBreak, State.afterCode] using hquote

theorem not_dots_of_quote (hc : IsQuote c) (t : Text) : startsContinuation (c :: t) = false := by
  rcases hc with rfl | rfl <;> rfl

/-- Where the tokens have the rest of a string, the mask goes to its end. -/
theorem Quoting.passes {delimiter : Char} {content spelling : Text} (h : Quoting delimiter m)
    (hd : IsQuote delimiter) (hs : sentinel ∉ t) (hb : stringBody delimiter t = some (content, spelling, rest)) :
    spelling.getLast? = some delimiter ∧ ∃ m', Plain m' ∧ Passes m spelling rest spelling m' := by
  fun_induction stringBody delimiter t generalizing content spelling rest m with
  | case1 => cases hb
  | case2 =>
    cases hb
    exact ⟨rfl, _, h.next_quote hd,
      h.passes_cons (Passes.nil _ _) (List.ne_of_not_mem_cons hs).symm (depth_next_quote hd m)⟩
  | case3 => cases hb
  | case4 t ih =>
    obtain ⟨⟨a, b, r⟩, hr, he⟩ := Option.map_eq_some_iff.1 hb
    cases he
    have hne : delimiter ≠ sentinel := (List.ne_of_not_mem_cons hs).symm
    have hclosed := h.next_quote hd
    obtain ⟨hlast, m', hm', hp⟩ :=
      ih (hclosed.next_quote hd) (fun hm => hs (List.mem_cons_of_mem _ (List.mem_cons_of_mem _ hm))) hr
    refine ⟨?_, m', hm', ?_⟩
    · rw [List.getLast?_cons, List.getLast?_cons, hlast]
      rfl
    · have hopened := hp.cons (by simp [not_dots_of_quote hd]) hclosed.continuation hne
        (depth_next_quote hd _) fun heq => absurd (heq ▸ hd) (by simp [IsQuote])
      exact h.passes_cons hopened hne (depth_next_quote hd m)
  | case5 d t hne =>
    cases hb
    exact ⟨rfl, _, h.next_quote hd,
      h.passes_cons (Passes.nil _ _) (List.ne_of_not_mem_cons hs).symm (depth_next_quote hd m)⟩
  | case6 => cases hb
  | case7 c d t hne hbreak ih =>
    obtain ⟨⟨a, b, r⟩, hr, he⟩ := Option.map_eq_some_iff.1 hb
    cases he
    obtain ⟨hlast, m', hm', hp⟩ := ih h (fun hm => hs (List.mem_cons_of_mem _ hm)) hr
    refine ⟨?_, m', hm', ?_⟩
    · rw [List.getLast?_cons, hlast]
      rfl
    · exact h.passes_cons ((h.next hne hbreak).symm ▸ hp) (List.ne_of_not_mem_cons hs).symm (by rw [h.next hne hbreak])

/-! ## Comments -/

/-- The mask goes through a comment. -/
structure Commenting (m : State) : Prop where
  comment : m.comment = true
  string : m.string = none
  continuation : m.continuation = false

theorem Plain.next_percent (h : Plain m) : Commenting (m.next '%') := by
  obtain ⟨comment, string, depth, continuation⟩ := m
  obtain ⟨rfl, rfl, rfl⟩ := h
  constructor <;> simp [State.next, State.afterQuote, State.afterBreak, State.afterCode]

/-- The mask goes over a comment to the end of its line. -/
theorem Commenting.passes (h : Commenting m) (hs : sentinel ∉ t) :
    Passes m (restOfLine t).1 (restOfLine t).2 (restOfLine t).1 m := by
  induction t with
  | nil => exact Passes.nil m []
  | cons c t ih =>
    by_cases hc : c = '\n'
    · subst hc
      exact Passes.nil m ('\n' :: t)
    · have hcode : m.code = false := by simp [State.code, h.comment]
      have hp := ih fun hm => hs (List.mem_cons_of_mem c hm)
      rw [restOfLine_cons hc]
      have hnext := next_of_comment h.comment hc
      exact Passes.cons (hnext.symm ▸ hp) (by simp [hcode]) h.continuation (List.ne_of_not_mem_cons hs).symm
        (by rw [hnext]) (mark_of_not_code hcode)

/-! ## Lexemes of code -/

/-- What opens or closes a bracket, or ends a statement or a line. -/
def stopSigns : Text := ['(', ')', '[', ']', '\x7b', '\x7d', ';', '\n']

/-- What matters to the mask in code, points aside. -/
def signs : Text := '\x27' :: '"' :: '%' :: stopSigns

theorem not_mem_signs {p : Char → Bool} (hp : p c = true) (hno : signs.all (fun d => !p d) = true) : c ∉ signs := by
  intro hc
  have hcp := List.all_eq_true.1 hno c hc
  rw [hp] at hcp
  cases hcp

/-- No sign of these stands in the text, and no continuation begins in it with this rest behind. -/
structure Quiet (u rest : Text) : Prop where
  marks : ∀ c ∈ u, c ∉ signs
  dots : ∀ y, y <:+ u → y ≠ [] → startsContinuation (y ++ rest) = false

theorem quiet_singleton (hc : c ∉ signs) (hdots : startsContinuation (c :: t) = false) : Quiet [c] t where
  marks d hd := by
    rw [List.mem_singleton.1 hd]
    exact hc
  dots y hy hne := by
    rcases List.suffix_cons_iff.1 hy with rfl | hy
    · exact hdots
    · exact (hne (List.suffix_nil.1 hy)).elim

theorem next_of_not_mem (hc : c ∉ signs) (m : State) : m.next c = m := by
  simp only [signs, stopSigns, List.mem_cons, List.not_mem_nil, or_false, not_or] at hc
  obtain ⟨hq, hq', hpercent, ho, hc, ho', hc', ho'', hc'', -, hn⟩ := hc
  simp [State.next, State.afterQuote, State.afterBreak, State.afterCode, *]

/-- The mask goes over such a text and leaves it as it is. -/
theorem Plain.passes_quiet (h : Plain m) (hq : Quiet u rest) (hs : sentinel ∉ u) : Passes m u rest u m := by
  induction u with
  | nil => exact Passes.nil m rest
  | cons c u ih =>
    have hc := hq.marks c List.mem_cons_self
    have hdots : startsContinuation (c :: (u ++ rest)) = false := hq.dots _ (List.suffix_refl _) (List.cons_ne_nil _ _)
    have hp := ih ⟨fun d hd => hq.marks d (List.mem_cons_of_mem c hd),
      fun y hy => hq.dots y (hy.trans (List.suffix_cons c u))⟩
      fun hm => hs (List.mem_cons_of_mem c hm)
    refine Passes.cons ((next_of_not_mem hc m).symm ▸ hp) (by simp [hdots]) h.continuation
      (List.ne_of_not_mem_cons hs).symm
      (by rw [next_of_not_mem hc]) fun heq => ?_
    exact (hc (heq ▸ by decide)).elim

theorem pointed_cases (t : Text) :
    (fractionPart t).2.1 = [] ∨ ∃ ds, (fractionPart t).2.1 = '.' :: ds ∧ (∀ c ∈ ds, c.isDigit = true) ∧
      (ds ++ (fractionPart t).2.2).head? ≠ some '.' := by
  unfold fractionPart
  split
  · next t =>
    split
    · exact .inl rfl
    · next hopens =>
      refine .inr ⟨_, rfl, fun c hc => List.mem_takeWhile_imp hc, ?_⟩
      rw [List.takeWhile_append_dropWhile]
      cases t with
      | nil => simp
      | cons c t =>
        simp only [opensOperator, Bool.or_eq_true, beq_iff_eq, not_or] at hopens
        simpa using hopens.2
  · exact .inl rfl

theorem scaled_marks (t : Text) :
    ∀ c ∈ (exponentPart t).2.1, c.isDigit = true ∨ c ∈ ['e', 'E', '+', '-'] := by
  intro c hc
  cases t with
  | nil => cases hc
  | cons e t =>
    simp only [exponentPart] at hc
    split at hc
    · next he =>
      simp only [Bool.and_eq_true, Bool.or_eq_true, decide_eq_true_eq] at he
      rcases List.mem_cons.1 hc with rfl | hc
      · exact .inr (by rcases he.1 with rfl | rfl <;> decide)
      rcases List.mem_append.1 hc with hc | hc
      · unfold exponentSign at hc
        split at hc
        · exact .inr (by rw [List.mem_singleton.1 hc]; decide)
        · exact .inr (by rw [List.mem_singleton.1 hc]; decide)
        · cases hc
      · exact .inl (List.mem_takeWhile_imp hc)
    · cases hc

theorem numeral_marks (t : Text) :
    ∀ c ∈ (numeral t).spelling, c.isDigit = true ∨ c ∈ ['.', 'e', 'E', '+', '-'] := by
  intro c hc
  simp only [numeral, List.append_assoc, List.mem_append] at hc
  rcases hc with hc | hc | hc
  · exact .inl (List.mem_takeWhile_imp hc)
  · rcases pointed_cases (t.dropWhile Char.isDigit) with hp | ⟨ds, hp, hds, -⟩
    · rw [hp] at hc
      cases hc
    · rw [hp] at hc
      rcases List.mem_cons.1 hc with rfl | hc
      · exact .inr List.mem_cons_self
      · exact .inl (hds c hc)
  · exact (scaled_marks _ c hc).imp id (List.mem_cons_of_mem _)

/-- Behind the point of a numeral stands no other point. -/
theorem numeral_point {x y : Text} (h : (numeral t).spelling = x ++ '.' :: y) :
    (y ++ (numeral t).rest).head? ≠ some '.' := by
  have hwhole : '.' ∉ t.takeWhile Char.isDigit := fun hm => absurd (List.mem_takeWhile_imp hm) (by decide)
  have hscaled : '.' ∉ (exponentPart (fractionPart (t.dropWhile Char.isDigit)).2.2).2.1 := fun hm =>
    absurd (scaled_marks _ _ hm) (by decide)
  have happ := exponentPart_append (fractionPart (t.dropWhile Char.isDigit)).2.2
  simp only [numeral, List.append_assoc] at h ⊢
  rcases pointed_cases (t.dropWhile Char.isDigit) with hp | ⟨ds, hp, hds, hnext⟩
  · have hmem : '.' ∈ t.takeWhile Char.isDigit ++
        ([] ++ (exponentPart (fractionPart (t.dropWhile Char.isDigit)).2.2).2.1) := by
      rw [← hp, h]
      simp
    simp [hwhole, hscaled] at hmem
  · have hds' : '.' ∉ ds := fun hm => absurd (hds _ hm) (by decide)
    rw [hp, List.cons_append, List.append_cons_inj_of_notMem hwhole (by simp [hds', hscaled])] at h
    rw [← h.2.2, List.append_assoc, happ]
    exact hnext

theorem quiet_numeral (t : Text) : Quiet (numeral t).spelling (numeral t).rest where
  marks c hc := by
    rcases numeral_marks t c hc with hd | hm
    · exact not_mem_signs hd (by decide)
    · have hall : ∀ c ∈ ['.', 'e', 'E', '+', '-'], c ∉ signs := by simp [signs, stopSigns]
      exact hall c hm
  dots y hy hne := by
    obtain ⟨x, hx⟩ := hy
    cases y with
    | nil => exact (hne rfl).elim
    | cons c y =>
      by_cases hc : c = '.'
      · subst hc
        have hnext := numeral_point hx.symm
        cases hv : y ++ (numeral t).rest with
        | nil => simp [startsContinuation, hv]
        | cons d v =>
          rw [hv] at hnext
          have hd : d ≠ '.' := by simpa using hnext
          simp [startsContinuation, hv, hd]
      · simp [startsContinuation, hc]

theorem quiet_name (t : Text) : Quiet (name t).spelling (name t).rest := by
  have hmarks : ∀ c ∈ (name t).spelling, isNamePart c = true := fun c hc => List.mem_takeWhile_imp hc
  refine ⟨fun c hc => not_mem_signs (hmarks c hc) (by decide), fun y hy hy' => ?_⟩
  cases y with
  | nil => exact (hy' rfl).elim
  | cons c y =>
    have hc : c ≠ '.' := by
      rintro rfl
      exact absurd (hmarks '.' (hy.subset List.mem_cons_self)) (by decide)
    simp [startsContinuation, hc]

/-- The kinds that change which brackets are open or end a statement. -/
def stops : TokenKind → Bool
  | .opening _ | .closing _ | .semicolon | .newline => true
  | _ => false

/-- The two characters of an operator that does not transpose. -/
theorem operator_pair {d : Char} {kind : TokenKind} (h : operator? c (some d) = some (kind, true))
    (hk : kind ≠ .transpose) : c ∉ signs ∧ d ∈ ['*', '/', '^', '=', '&', '|'] ∧ stops kind = false := by
  unfold operator? at h
  split at h
  all_goals first
    | cases h; done
    | (next heq => cases heq; cases h; first | exact (hk rfl).elim | exact ⟨by decide, by decide, rfl⟩)

theorem operator_single {next : Option Char} {kind : TokenKind} (h : operator? c next = some (kind, false))
    (hc : c ∉ stopSigns) : stops kind = false := by
  unfold operator? at h
  split at h
  all_goals first
    | cases h; done
    | (cases h; first | rfl | exact (hc (by decide)).elim)

theorem quiet_pair {d : Char} (hat : AtLexeme c (d :: t)) (hc : c ∉ signs)
    (hd : d ∈ ['*', '/', '^', '=', '&', '|']) : Quiet [c, d] t where
  marks x hx := by
    rcases List.mem_cons.1 hx with rfl | hx
    · exact hc
    · have hall : ∀ c ∈ ['*', '/', '^', '=', '&', '|'], c ∉ signs := by simp [signs, stopSigns]
      exact List.mem_singleton.1 hx ▸ hall d hd
  dots y hy hne := by
    rcases List.suffix_cons_iff.1 hy with rfl | hy
    · exact hat.here
    · obtain rfl : y = [d] := by
        rcases List.suffix_cons_iff.1 hy with rfl | hy
        · rfl
        · exact (hne (List.suffix_nil.1 hy)).elim
      have hdot : d ≠ '.' := by
        rintro rfl
        exact absurd hd (by decide)
      simp [startsContinuation, hdot]

/-- A lexeme that does not transpose is quiet, a string, or one character that is a bracket or an end. -/
theorem lexeme_cases {transposes : Bool} (hat : AtLexeme c t) (h : lexeme transposes c t = .ok l)
    (hk : l.kind ≠ .transpose) :
    Quiet l.spelling l.rest ∧ stops l.kind = false ∨ IsQuote c ∧ string c t = .ok l ∨
      c ∈ stopSigns ∧ operator? c t.head? = some (l.kind, false) ∧ l = ⟨l.kind, [c], t⟩ := by
  unfold lexeme at h
  split at h
  · cases h
    exact .inl ⟨quiet_numeral _, rfl⟩
  split at h
  · cases h
    exact .inl ⟨quiet_name _, rfl⟩
  split at h
  · cases h
    exact (hk rfl).elim
  split at h
  · next hq => exact .inr (.inl ⟨by simpa [IsQuote] using hq, h⟩)
  next hq =>
  split at h
  · next k ho =>
    cases h
    cases t with
    | nil => exact (operator?_none c ho).elim
    | cons d t =>
      obtain ⟨hc, hd, hkind⟩ := operator_pair ho hk
      exact .inl ⟨quiet_pair hat hc hd, hkind⟩
  · next k ho =>
    cases h
    by_cases hstop : c ∈ stopSigns
    · exact .inr (.inr ⟨hstop, ho, rfl⟩)
    · have hc : c ∉ signs := by simpa [signs, hat.code, hstop] using hq
      exact .inl ⟨quiet_singleton hc hat.here, operator_single ho hstop⟩
  · cases h

/-- The mask is in code, or at the end of a comment. -/
structure Between (m : State) (t : Text) : Prop where
  string : m.string = none
  continuation : m.continuation = false
  comment : m.comment = true → t = [] ∨ t.head? = some '\n'

theorem Plain.between (h : Plain m) (t : Text) : Between m t :=
  ⟨h.string, h.continuation, by simp [h.comment]⟩

theorem Between.plain (h : Between m (c :: t)) (hn : c ≠ '\n') : Plain m := by
  refine ⟨Bool.eq_false_iff.2 fun hc => ?_, h.string, h.continuation⟩
  rcases h.comment hc with hnil | hhead
  · cases hnil
  · exact hn (by simpa using hhead)

/-- Whether a token ends a statement where these brackets are open. -/
def endsAt (gs : List Bracket) : TokenKind → Bool
  | .semicolon => gs.isEmpty
  | _ => false

/-- The mask goes from the first state over a lexeme to the second one, which is in code. The lexeme stays as it
is. If the mask has counted the brackets that are open, it does so for this lexeme too, and shows the semicolon
that ends a statement and no other. -/
structure Mirrors (m : State) (l : Lexeme) (m' : State) : Prop where
  plain : Plain m'
  reveal : Edit.reveal m (l.spelling ++ l.rest) = l.spelling ++ Edit.reveal m' l.rest
  depth : ∀ gs gs', m.depth = gs.length → (l.kind = .newline → gs = []) → nest gs l.kind = some gs' →
    m'.depth = gs'.length
  shown : ∀ gs, m.depth = List.length gs → ∀ offset, Edit.shown m offset (l.spelling ++ l.rest) =
    (if endsAt gs l.kind = true then [offset] else []) ++ Edit.shown m' (offset + Text.byteLength l.spelling) l.rest

theorem nest_of_stops {kind : TokenKind} (h : stops kind = false) (gs : List Bracket) :
    nest gs kind = some gs ∧ endsAt gs kind = false := by
  cases kind <;> first | exact ⟨rfl, rfl⟩ | cases h

/-- A lexeme that holds no brackets and no ends is passed. -/
theorem Passes.mirrors (hp : Passes m l.spelling l.rest l.spelling m') (hm' : Plain m') (hk : stops l.kind = false) :
    Mirrors m l m' where
  plain := hm'
  reveal := hp.reveal
  depth gs gs' hd _ hn := by
    rw [(nest_of_stops hk gs).1] at hn
    cases hn
    exact hp.depth.trans hd
  shown gs _ offset := by
    rw [(nest_of_stops hk gs).2, hp.shown]
    rfl

/-- What a bracket or an end is to the tokens. -/
theorem stop_cases {next : Option Char} {kind : TokenKind} (hc : c ∈ stopSigns)
    (h : operator? c next = some (kind, false)) :
    (∃ b, kind = .opening b ∧ c ∈ ['(', '[', '\x7b']) ∨ (∃ b, kind = .closing b ∧ c ∈ [')', ']', '\x7d']) ∨
      (kind = .semicolon ∧ c = ';') ∨ (kind = .newline ∧ c = '\n') := by
  simp only [stopSigns, List.mem_cons, List.not_mem_nil, or_false] at hc
  rcases hc with rfl | rfl | rfl | rfl | rfl | rfl | rfl | rfl <;>
    (simp only [operator?, Option.some.injEq, Prod.mk.injEq, and_true] at h; subst h; simp)

theorem Plain.next_opening (h : Plain m) (hc : c ∈ ['(', '[', '\x7b']) :
    m.next c = { m with depth := m.depth + 1 } := by
  simp only [List.mem_cons, List.not_mem_nil, or_false] at hc
  rcases hc with rfl | rfl | rfl <;>
    simp [State.next, State.afterQuote, State.afterBreak, State.afterCode, h.code]

theorem Plain.next_closing (h : Plain m) (hc : c ∈ [')', ']', '\x7d']) :
    m.next c = { m with depth := m.depth - 1 } := by
  simp only [List.mem_cons, List.not_mem_nil, or_false] at hc
  rcases hc with rfl | rfl | rfl <;>
    simp [State.next, State.afterQuote, State.afterBreak, State.afterCode, h.code]

theorem Plain.with_depth (h : Plain m) (n : Int) : Plain { m with depth := n } := ⟨h.comment, h.string, h.continuation⟩

/-- Over a character that is neither a quote nor shown as a semicolon. -/
theorem Between.mirrors_single {kind : TokenKind} (hm : Between m (c :: t)) (hc : c ≠ '.' ∧ c ≠ sentinel ∧ c ≠ ';')
    (hplain : Plain (m.next c)) (hkind : ∀ gs, endsAt gs kind = false)
    (hdepth : ∀ gs gs', m.depth = List.length gs → (kind = .newline → gs = []) → nest gs kind = some gs' →
      (m.next c).depth = List.length gs') : Mirrors m ⟨kind, [c], t⟩ (m.next c) where
  plain := hplain
  reveal := reveal_cons (by simp [startsContinuation, hc.1]) hm.continuation hc.2.1
  depth := hdepth
  shown gs _ offset := by
    rw [hkind gs, List.singleton_append, shown_cons (by simp [startsContinuation, hc.1]), if_neg fun h => hc.2.2 h.1]
    rfl

theorem next_semicolon (m : State) : m.next ';' = m := by
  simp [State.next, State.afterQuote, State.afterBreak, State.afterCode]

theorem Plain.mirrors_semicolon (h : Plain m) (t : Text) : Mirrors m ⟨.semicolon, [';'], t⟩ m := by
  have hdots : ¬ (m.code = true ∧ startsContinuation (';' :: t) = true) := by simp [startsContinuation]
  refine ⟨h, ?_, ?_, fun gs hd offset => ?_⟩
  · rw [List.singleton_append, reveal_cons hdots h.continuation (by decide), next_semicolon]
    rfl
  · rintro gs _ hd - ⟨⟩
    exact hd
  · -- it is protected where brackets are open
    have hmark : m.mark ';' = ⟨false, false⟩ ↔ endsAt gs .semicolon = true := by
      cases gs <;> simp [State.mark, endsAt, h.string, h.comment, h.continuation, hd]
    rw [List.singleton_append, shown_cons hdots, next_semicolon]
    simp only [true_and, hmark]
    rfl

/-- Brackets are counted as the tokens nest them, and semicolons are shown outside brackets. -/
theorem Between.mirrors_stop {kind : TokenKind} (hm : Between m (c :: t)) (hc : c ∈ stopSigns)
    (ho : operator? c t.head? = some (kind, false)) : ∃ m', Mirrors m ⟨kind, [c], t⟩ m' := by
  have hne : c ≠ '.' ∧ c ≠ sentinel := by
    refine ⟨?_, ?_⟩ <;> (rintro rfl; exact absurd hc (by decide))
  rcases stop_cases hc ho with ⟨b, rfl, hb⟩ | ⟨b, rfl, hb⟩ | ⟨rfl, rfl⟩ | ⟨rfl, rfl⟩
  · have hplain := hm.plain (by rintro rfl; exact absurd hb (by decide))
    refine ⟨_, hm.mirrors_single ⟨hne.1, hne.2, by rintro rfl; exact absurd hb (by decide)⟩ ?_ (fun _ => rfl) ?_⟩
    · rw [hplain.next_opening hb]
      exact hplain.with_depth _
    · rintro gs _ hd - ⟨⟩
      rw [hplain.next_opening hb]
      simp [hd]
  · have hplain := hm.plain (by rintro rfl; exact absurd hb (by decide))
    refine ⟨_, hm.mirrors_single ⟨hne.1, hne.2, by rintro rfl; exact absurd hb (by decide)⟩ ?_ (fun _ => rfl) ?_⟩
    · rw [hplain.next_closing hb]
      exact hplain.with_depth _
    · intro gs gs' hd _ hn
      rw [hplain.next_closing hb]
      cases gs with
      | nil => cases hn
      | cons g outer =>
        simp only [nest] at hn
        split at hn
        · cases hn
          simp [hd]
        · cases hn
  · exact ⟨m, (hm.plain (by decide)).mirrors_semicolon t⟩
  · refine ⟨_, hm.mirrors_single ⟨hne.1, hne.2, by decide⟩ (plain_next_break m) (fun _ => rfl) ?_⟩
    intro gs gs' hd hg hn
    obtain rfl := hg rfl
    cases hn
    simp [State.next, State.afterQuote, State.afterBreak, State.afterCode, hm.continuation]

/-- Where the tokens have a lexeme, the mask reads it too. -/
theorem lexeme_masked {transposes : Bool} (hm : Between m (c :: t)) (hs : sentinel ∉ c :: t) (hat : AtLexeme c t)
    (h : lexeme transposes c t = .ok l) (hk : l.kind ≠ .transpose) :
    (∃ m', Mirrors m l m') ∧ (startsContinuation l.rest = true → l.spelling.getLast? ≠ some '.') := by
  have happ := (lexeme_append h).1
  rcases lexeme_cases hat h hk with ⟨hq, hkind⟩ | ⟨hc, hstring⟩ | ⟨hc, ho, hl⟩
  · have hplain : Plain m := by
      refine hm.plain fun hn => ?_
      cases hspell : l.spelling with
      | nil => exact (lexeme_append h).2 hspell
      | cons d u =>
        rw [hspell] at happ
        obtain ⟨rfl, -⟩ := List.cons.inj happ
        exact hq.marks d (hspell ▸ List.mem_cons_self) (hn ▸ by decide)
    have hp := hplain.passes_quiet hq fun hmem => hs (happ ▸ List.mem_append_left _ hmem)
    refine ⟨⟨m, hp.mirrors hplain hkind⟩, fun hdots hlast => ?_⟩
    obtain ⟨x, hx⟩ := List.getLast?_eq_some_iff.1 hlast
    have hno := hq.dots ['.'] ⟨x, hx.symm⟩ (List.cons_ne_nil _ _)
    -- a point in front of a continuation would begin one
    unfold startsContinuation at hdots
    split at hdots
    · next heq =>
      rw [heq] at hno
      cases hno
    · cases hdots
  · have hplain : Plain m := hm.plain (by rintro rfl; rcases hc with hc | hc <;> cases hc)
    unfold string at hstring
    split at hstring
    · next content spelling rest hb =>
      cases hstring
      have hne : c ≠ sentinel := (List.ne_of_not_mem_cons hs).symm
      obtain ⟨hlast, m', hm', hp⟩ :=
        (hplain.next_quote hc).passes hc (fun hmem => hs (List.mem_cons_of_mem c hmem)) hb
      have hopened := hp.cons (by simp [not_dots_of_quote hc]) hplain.continuation hne (depth_next_quote hc m)
        fun heq => absurd (heq ▸ hc) (by simp [IsQuote])
      refine ⟨⟨m', hopened.mirrors hm' rfl⟩, fun _ => ?_⟩
      rw [List.getLast?_cons, hlast]
      rintro ⟨⟩
      rcases hc with hc | hc <;> cases hc
    · cases hstring
  · rw [hl]
    refine ⟨hm.mirrors_stop hc ho, fun _ => ?_⟩
    intro hpoint
    obtain rfl : c = '.' := by simpa using hpoint
    exact absurd hc (by decide)

/-! ## Between lexemes -/

theorem Plain.passes_blank (hm : Plain m) (hc : isSpace c = true) (t : Text) : Passes m [c] t [c] m := by
  have hne : c ≠ '.' ∧ c ≠ sentinel := by
    refine ⟨?_, ?_⟩ <;> (rintro rfl; cases hc)
  refine hm.passes_quiet (quiet_singleton (not_mem_signs hc (by decide)) (by simp [startsContinuation, hne.1])) ?_
  simpa using hne.2.symm

theorem Plain.passes_continuation (hm : Plain m) (hc : startsContinuation (c :: t) = true) : ∃ m', Plain m' ∧
    Passes m (c :: (Token.continuation t).1) (Token.continuation t).2
      (List.replicate (Text.byteLength (c :: (Token.continuation t).1)) ' ') m' := by
  obtain ⟨v, rfl, rfl⟩ : ∃ v, c = '.' ∧ t = '.' :: '.' :: v := by
    unfold startsContinuation at hc
    split at hc
    · next heq =>
      cases heq
      exact ⟨_, rfl, rfl⟩
    · cases hc
  obtain ⟨m', hm', hp⟩ := hm.continued.passes v
  have hlen : Text.byteLength ('.' :: '.' :: '.' :: (Token.continuation v).1) =
      3 + Text.byteLength (Token.continuation v).1 :=
    Text.byteLength_append ['.', '.', '.'] _
  rw [continuation_cons (by decide), continuation_cons (by decide)]
  refine ⟨m', hm', ?_, hp.depth, fun offset => ?_⟩
  · rw [hlen, ← List.replicate_append_replicate]
    exact (reveal_dots hm.code _).trans (congrArg (' ' :: ' ' :: ' ' :: ·) hp.reveal)
  · rw [hlen, ← Nat.add_assoc]
    exact (shown_dots hm.code _ _).trans (hp.shown _)

theorem Plain.passes_comment (hm : Plain m) (hs : sentinel ∉ t) :
    Passes m ('%' :: (restOfLine t).1) (restOfLine t).2 ('%' :: (restOfLine t).1) (m.next '%') := by
  have hdepth : (m.next '%').depth = m.depth := by
    simp [State.next, State.afterQuote, State.afterBreak, State.afterCode, hm.string]
  exact (hm.next_percent.passes hs).cons (by simp [startsContinuation]) hm.continuation (by decide) hdepth
    fun heq => absurd heq (by decide)

end Edit

end ConfigScript
