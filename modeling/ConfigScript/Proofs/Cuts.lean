import ConfigScript.Proofs.Scanning
/-!
# Lexemes in front of a cut

Between a text and a rest is a `Cut` if no lexeme goes across: the rest begins with a blank, with a
continuation, or with a letter that goes on with nothing in front of it. Such rests can stand for one
another (`lexeme_cut`), and so a scan comes as far in front of one as in front of the other
(`Step.cut`, `Run.cut`).
-/

namespace ConfigScript

namespace Token

variable {s s₁ : Scan} {t u p q r r' rest rest' : Text} {c : Char}

/-- No lexeme of the text in front goes on with the rest. -/
inductive Cut (q : Text) : Text → Prop
  | blank {r : Text} : Cut q (' ' :: r)
  | continued {r : Text} : q.getLast? ≠ some '.' → Cut q ('.' :: '.' :: '.' :: r)
  | letter {c : Char} {r : Text} :
    c.isAlpha = true → (∀ x ∈ q.getLast?, isNamePart x = false ∧ x ≠ '.') → Cut q (c :: r)

theorem Cut.of_append (h : Cut (u ++ p) r) : Cut p r := by
  have hlast : ∀ x, p.getLast? = some x → (u ++ p).getLast? = some x := by
    intro x hx
    rw [List.getLast?_append, hx, Option.some_or]
  cases h with
  | blank => exact .blank
  | continued hdot => exact .continued fun hx => hdot (hlast _ hx)
  | letter hc hq => exact .letter hc fun x hx => hq x (hlast x hx)

/-- How the rest of a cut begins. -/
theorem Cut.head (h : Cut q r) : ∃ c t, r = c :: t ∧ (c = ' ' ∨ c = '.' ∨ c.isAlpha = true) := by
  cases h with
  | blank => exact ⟨_, _, rfl, .inl rfl⟩
  | continued => exact ⟨_, _, rfl, .inr (.inl rfl)⟩
  | letter hc => exact ⟨_, _, rfl, .inr (.inr hc)⟩

theorem Cut.head_ne (h : Cut q r) {d : Char} (hd : d ≠ ' ' ∧ d ≠ '.' ∧ d.isAlpha = false) : r.head? ≠ some d := by
  obtain ⟨c, t, rfl, hc⟩ := h.head
  rintro ⟨⟩
  rcases hc with rfl | rfl | hc
  · exact hd.1 rfl
  · exact hd.2.1 rfl
  · rw [hd.2.2] at hc
    cases hc

theorem Cut.isDigit (h : Cut q r) : r.head?.any Char.isDigit = false := by
  obtain ⟨c, t, rfl, rfl | rfl | hc⟩ := h.head
  · rfl
  · rfl
  · exact not_isDigit_of_isAlpha hc

/-! ## Numerals and names -/

/-- What is taken from the front of a text stays what it is if the rest does not go on with it. -/
theorem takeWhile_append_of_stop {α : Type} {p : α → Bool} {q r : List α}
    (h : r.head?.any p = false ∨ ∃ x ∈ q, p x = false) :
    (q ++ r).takeWhile p = q.takeWhile p ∧ (q ++ r).dropWhile p = q.dropWhile p ++ r := by
  induction q with
  | nil =>
    have hr : r.head?.any p = false := h.resolve_right (by simp)
    cases r with
    | nil => exact ⟨rfl, rfl⟩
    | cons c r =>
      have hc : p c = false := hr
      simp [hc]
  | cons x q ih =>
    cases hx : p x with
    | false => simp [hx]
    | true =>
      have ih := ih (h.imp id fun ⟨y, hy, hp⟩ => by
        rcases List.mem_cons.1 hy with rfl | hy
        · rw [hx] at hp
          cases hp
        · exact ⟨y, hy, hp⟩)
      simpa [hx] using ih

theorem opensOperator_of_ne (hr : r.head? ≠ some '.') (h : Cut q r) : opensOperator r = false := by
  obtain ⟨c, t, rfl, hc⟩ := h.head
  have hne : ∀ d, d ≠ ' ' ∧ d.isAlpha = false → c = d → d = '.' := by
    rintro d hd rfl
    rcases hc with hc | hc | hc
    · exact (hd.1 hc).elim
    · exact hc
    · rw [hd.2] at hc
      cases hc
  simp only [opensOperator, Bool.or_eq_false_iff, beq_eq_false_iff_ne]
  refine ⟨⟨⟨⟨?_, ?_⟩, ?_⟩, ?_⟩, fun hdot => hr (hdot ▸ rfl)⟩
  all_goals
    intro heq
    exact absurd (hne _ (by decide) heq) (by decide)

theorem fractionPart_cut (h : Cut q r) :
    fractionPart (q ++ r) = ((fractionPart q).1, (fractionPart q).2.1, (fractionPart q).2.2 ++ r) := by
  by_cases hq : q.head? = some '.'
  · obtain ⟨q, rfl⟩ : ∃ t, q = '.' :: t := by
      cases q with
      | nil => cases hq
      | cons c q => exact ⟨q, by simpa using hq⟩
    have hopens : opensOperator (q ++ r) = opensOperator q := by
      cases q with
      | cons => rfl
      | nil =>
        refine opensOperator_of_ne (q := []) ?_ (h.of_append (u := ['.']))
        cases h with
        | blank => simp
        | continued hdot => exact (hdot rfl).elim
        | letter hc _ =>
          rintro ⟨⟩
          cases hc
    obtain ⟨htake, hdrop⟩ := takeWhile_append_of_stop (q := q) (.inl h.isDigit)
    simp only [List.cons_append, fractionPart, hopens]
    split
    · rfl
    · rw [htake, hdrop]
  · cases q with
    | cons c q =>
      have hc : (c :: q).head? ≠ some '.' := hq
      rw [fractionPart_of_ne hc]
      exact fractionPart_of_ne (t := c :: (q ++ r)) hc
    | nil =>
      rw [List.nil_append]
      cases h with
      | blank => rfl
      | continued => rfl
      | letter hc _ =>
        refine fractionPart_of_ne ?_
        rintro ⟨⟩
        cases hc

theorem exponentSign_cut (h : Cut q r) :
    exponentSign (q ++ r) = ((exponentSign q).1, (exponentSign q).2 ++ r) := by
  cases q with
  | nil => exact exponentSign_of_ne ⟨h.head_ne (by decide), h.head_ne (by decide)⟩
  | cons c q =>
    by_cases hc : c = '+' ∨ c = '-'
    · rcases hc with rfl | rfl <;> rfl
    · have hc : (c :: q).head? ≠ some '+' ∧ (c :: q).head? ≠ some '-' := by simpa using hc
      rw [exponentSign_of_ne hc]
      exact exponentSign_of_ne (t := c :: (q ++ r)) hc

theorem exponentPart_cut (h : Cut q r) (hq : q = [] → r.head? ≠ some 'e' ∧ r.head? ≠ some 'E') :
    exponentPart (q ++ r) = ((exponentPart q).1, (exponentPart q).2.1, (exponentPart q).2.2 ++ r) := by
  cases q with
  | nil => exact exponentPart_of_ne (hq rfl)
  | cons e q =>
    have hsign := exponentSign_cut (h.of_append (u := [e]))
    have hsuffix : (exponentSign q).2 <:+ q := ⟨_, exponentSign_append q⟩
    obtain ⟨htake, hdrop⟩ := takeWhile_append_of_stop (q := (exponentSign q).2) (.inl h.isDigit)
    simp only [List.cons_append, exponentPart, hsign, htake, hdrop]
    split <;> rfl

/-- The digits of a numeral and its point. -/
theorem digit_or_point (q : Text) :
    ∀ x ∈ q.takeWhile Char.isDigit ++ (fractionPart (q.dropWhile Char.isDigit)).2.1, x.isDigit = true ∨ x = '.' := by
  intro x hx
  rcases List.mem_append.1 hx with hx | hx
  · exact .inl (List.mem_takeWhile_imp hx)
  · unfold fractionPart at hx
    split at hx
    · split at hx
      · cases hx
      · rcases List.mem_cons.1 hx with rfl | hx
        · exact .inr rfl
        · exact .inl (List.mem_takeWhile_imp hx)
    · cases hx

theorem numeral_cut (h : Cut q r) (hq : q ≠ []) :
    numeral (q ++ r) = ⟨(numeral q).kind, (numeral q).spelling, (numeral q).rest ++ r⟩ := by
  obtain ⟨htake, hdrop⟩ := takeWhile_append_of_stop (q := q) (.inl h.isDigit)
  have hsuffix : ∃ u, q = u ++ q.dropWhile Char.isDigit := ⟨_, List.takeWhile_append_dropWhile.symm⟩
  have hcut : Cut (q.dropWhile Char.isDigit) r := by
    obtain ⟨u, hu⟩ := hsuffix
    rw [hu] at h
    exact h.of_append
  have hcut' : Cut (fractionPart (q.dropWhile Char.isDigit)).2.2 r := by
    rw [← fractionPart_append (q.dropWhile Char.isDigit)] at hcut
    exact hcut.of_append
  have hexp := exponentPart_cut hcut' fun hnil => by
    -- the numeral ends in a digit or a point, and so the rest is no letter
    have hall : q = q.takeWhile Char.isDigit ++ (fractionPart (q.dropWhile Char.isDigit)).2.1 := by
      have happ := fractionPart_append (q.dropWhile Char.isDigit)
      rw [hnil, List.append_nil] at happ
      rw [happ, List.takeWhile_append_dropWhile]
    cases h with
    | blank => exact ⟨by simp, by simp⟩
    | continued => exact ⟨by simp, by simp⟩
    | letter _ hlast =>
      obtain ⟨hn, hdot⟩ := hlast _ (List.getLast?_eq_some_getLast hq)
      have hmem := digit_or_point q (q.getLast hq) (hall ▸ List.getLast_mem hq)
      rcases hmem with hd | hd
      · simp [isNamePart, Char.isAlphanum, hd] at hn
      · exact (hdot hd).elim
  simp only [numeral, htake, hdrop, fractionPart_cut hcut, hexp]

theorem name_cut (h : Cut q r) (hq : q ≠ []) :
    name (q ++ r) = ⟨(name q).kind, (name q).spelling, (name q).rest ++ r⟩ := by
  have hstop : r.head?.any isNamePart = false ∨ ∃ x ∈ q, isNamePart x = false := by
    cases h with
    | blank => exact .inl rfl
    | continued => exact .inl rfl
    | letter _ hlast =>
      exact .inr ⟨q.getLast hq, List.getLast_mem hq, (hlast _ (List.getLast?_eq_some_getLast hq)).1⟩
  obtain ⟨htake, hdrop⟩ := takeWhile_append_of_stop hstop
  simp only [name, htake, hdrop]

/-! ## Lexemes -/

theorem Cut.operator? (h : Cut q r) (c : Char) : operator? c r.head? = operator? c none := by
  obtain ⟨d, t, rfl, hd⟩ := h.head
  refine operator?_some ⟨?_, ?_, ?_, ?_, ?_, ?_, ?_⟩ c
  all_goals
    rintro rfl
    rcases hd with hd | hd | hd <;> cases hd

/-- What stands between a lexeme and a cut begins in the same way whatever the rest is. -/
theorem Cut.any (h : Cut q r) (h' : Cut q r') {f : Char → Bool} (hf : ∀ q r, Cut q r → r.head?.any f = false) :
    (p ++ r).head?.any f = (p ++ r').head?.any f := by
  cases p with
  | cons => rfl
  | nil => exact (hf q r h).trans (hf q r' h').symm

/-- A string in front of a cut is the same string whatever the rest is. -/
theorem string_cut {kind : TokenKind} (hq : c = '\x27' ∨ c = '"') (hr : Cut (c :: u ++ p) r')
    (h : string c (u ++ (p ++ r)) = .ok ⟨kind, c :: u, p ++ r⟩) :
    string c (u ++ (p ++ r')) = .ok ⟨kind, c :: u, p ++ r'⟩ := by
  have hc : c ≠ ' ' ∧ c ≠ '.' ∧ c.isAlpha = false := by
    rcases hq with rfl | rfl <;> decide
  unfold string at h ⊢
  split at h
  · next content spelling rest hb =>
    cases h
    have hrest : (p ++ r').head? ≠ some c := by
      have hclosed := stringBody_rest hb
      cases p with
      | nil => exact hr.head_ne hc
      | cons => exact hclosed
    rw [stringBody_before hb hrest]
  · cases h

/-- A lexeme in front of a cut is the same lexeme whatever the rest is. -/
theorem lexeme_cut {transposes : Bool} {kind : TokenKind} (hr : Cut (c :: u ++ p) r) (hr' : Cut (c :: u ++ p) r')
    (h : lexeme transposes c (u ++ (p ++ r)) = .ok ⟨kind, c :: u, p ++ r⟩) :
    lexeme transposes c (u ++ (p ++ r')) = .ok ⟨kind, c :: u, p ++ r'⟩ := by
  have hne : c :: u ++ p ≠ [] := List.cons_ne_nil _ _
  have hsplit : ∀ v, c :: u ++ (p ++ v) = c :: u ++ p ++ v := fun v => by simp
  have hdigit : (u ++ (p ++ r)).head?.any Char.isDigit = (u ++ (p ++ r')).head?.any Char.isDigit := by
    rw [← List.append_assoc, ← List.append_assoc]
    exact hr.any hr' fun _ _ => Cut.isDigit
  have hoperator : operator? c (u ++ (p ++ r)).head? = operator? c (u ++ (p ++ r')).head? := by
    rw [← List.append_assoc, ← List.append_assoc]
    cases u ++ p with
    | cons => rfl
    | nil => exact (hr.operator? c).trans (hr'.operator? c).symm
  refine lexeme_before hdigit (fun hl => ?_) (fun hl => ?_) (fun hq hl => string_cut hq hr' hl) hoperator h
  · rw [hsplit, numeral_cut hr hne, Lexeme.mk.injEq, List.append_cancel_right_eq] at hl
    rw [hsplit, numeral_cut hr' hne, hl.1, hl.2.1, hl.2.2]
  · rw [hsplit, name_cut hr hne, Lexeme.mk.injEq, List.append_cancel_right_eq] at hl
    rw [hsplit, name_cut hr' hne, hl.1, hl.2.1, hl.2.2]

/-! ## Steps -/

theorem startsContinuation_append (hq : q ≠ []) (h : Cut q r) : startsContinuation (q ++ r) = startsContinuation q := by
  have hr : q.getLast? = some '.' → r.head? ≠ some '.' := by
    intro hlast
    cases h with
    | blank => simp
    | continued hdot => exact (hdot hlast).elim
    | letter hc _ =>
      rintro ⟨⟩
      cases hc
  obtain ⟨c, t, rfl, -⟩ := h.head
  match q with
  | [a] =>
    by_cases ha : a = '.'
    · subst ha
      have hc : c ≠ '.' := by simpa using hr
      simp [startsContinuation, hc]
    · simp [startsContinuation, ha]
  | [a, b] =>
    by_cases hb : b = '.'
    · subst hb
      have hc : c ≠ '.' := by simpa using hr
      simp [startsContinuation, hc]
    · simp [startsContinuation, hb]
  | a :: b :: d :: q =>
    by_cases ha : a = '.' <;> by_cases hb : b = '.' <;> by_cases hd : d = '.' <;>
      simp [startsContinuation, ha, hb, hd]

/-- Only in front of a sign it matters whether a blank or anything else follows. -/
theorem startsElement_cut (h : Cut q r) (h' : Cut q r') (hc : c ≠ '+' ∧ c ≠ '-') :
    startsElement c r.head? = startsElement c r'.head? := by
  have hs : (decide (c = '+') || decide (c = '-')) = false := by simp [hc]
  have hequals : (r.head? != some '=') = true ∧ (r'.head? != some '=') = true :=
    ⟨bne_iff_ne.2 (h.head_ne (by decide)), bne_iff_ne.2 (h'.head_ne (by decide))⟩
  simp only [startsElement, hs, Bool.false_eq_true, if_false, hequals.1, hequals.2, h.isDigit, h'.isDigit]

theorem not_isBlank_of_namePart (h : isNamePart c = true) : isBlank c = false := by
  obtain ⟨hlow, hhigh⟩ := codes_of_namePart h
  simp [isBlank]
  omega

theorem not_isBlank_of_isAlpha (h : c.isAlpha = true) : isBlank c = false :=
  not_isBlank_of_namePart (by simp [isNamePart, Char.isAlphanum, h])

theorem startsElement_letter {d d' : Char} (h : d.isAlpha = true) (h' : d'.isAlpha = true) (c : Char) :
    startsElement c (some d) = startsElement c (some d') := by
  have hequals : ∀ x : Char, x.isAlpha = true → (x != '=') = true ∧ (some x != some '=') = true := by
    intro x hx
    have hne : x ≠ '=' := by
      rintro rfl
      cases hx
    exact ⟨bne_iff_ne.2 hne, bne_iff_ne.2 fun heq => hne (Option.some.inj heq)⟩
  simp [startsElement, not_isBlank_of_isAlpha h, not_isBlank_of_isAlpha h', hequals d h, hequals d' h',
    not_isDigit_of_isAlpha h, not_isDigit_of_isAlpha h']

/-- A step goes the same way whatever the rest behind a cut is, if it does not matter whether an operand follows
a sign. -/
theorem Step.cut (h : Step s (u ++ (p ++ r)) s₁ (p ++ r)) (hr : Cut (u ++ p) r) (hr' : Cut (u ++ p) r')
    (hg : ∀ c, u = [c] → p = [] → c = '+' ∨ c = '-' → s.separated c r.head? = s.separated c r'.head?) :
    Step s (u ++ (p ++ r')) s₁ (p ++ r') := by
  have hrest : p ++ r ≠ [] := by
    obtain ⟨c, t, rfl, -⟩ := hr.head
    simp
  have hdots : u ≠ [] → startsContinuation (u ++ (p ++ r')) = startsContinuation (u ++ (p ++ r)) := by
    intro hu
    have hne : u ++ p ≠ [] := fun hnil => hu (List.append_eq_nil_iff.1 hnil).1
    rw [← List.append_assoc, ← List.append_assoc, startsContinuation_append hne hr,
      startsContinuation_append hne hr']
  have hbreak : u.head? = some '%' → p ++ r' = [] ∨ (p ++ r').head? = some '\n' := by
    intro hu
    have hb := (h.break_of_comment hu).resolve_left hrest
    cases p with
    | nil => exact (hr.head_ne (by decide) hb).elim
    | cons => exact .inr hb
  have hsep : ∀ c v, u = c :: v → s.separated c (v ++ (p ++ r)).head? = s.separated c (v ++ (p ++ r')).head? := by
    rintro c v rfl
    rw [← List.append_assoc, ← List.append_assoc]
    cases hvp : v ++ p with
    | cons e w => rfl
    | nil =>
      obtain ⟨rfl, rfl⟩ := List.append_eq_nil_iff.1 hvp
      rw [List.nil_append, List.nil_append]
      by_cases hsign : c = '+' ∨ c = '-'
      · exact hg c rfl rfl hsign
      · exact Scan.separated_congr (startsElement_cut hr hr' (by simpa using hsign))
  refine h.before hdots (fun hnil => (hrest hnil).elim) hbreak hsep ?_
  rintro transposes kind c v rfl hl
  exact lexeme_cut hr hr' hl

/-- In front of a letter that nothing goes on with a run comes as far as in front of another one. -/
theorem Run.cut (h : Run s (u ++ r) s₁ r) (hr : Cut u r) (hr' : Cut u r')
    (hc : r.head?.any Char.isAlpha = true) (hc' : r'.head?.any Char.isAlpha = true) : Run s (u ++ r') s₁ r' := by
  obtain ⟨c, r, rfl⟩ : ∃ c t, r = c :: t := by
    obtain ⟨c, t, rfl, -⟩ := hr.head
    exact ⟨c, t, rfl⟩
  obtain ⟨c', r', rfl⟩ : ∃ c t, r' = c :: t := by
    obtain ⟨c, t, rfl, -⟩ := hr'.head
    exact ⟨c, t, rfl⟩
  generalize ht : u ++ c :: r = t at h
  generalize hw : c :: r = w at h
  induction h generalizing u with
  | nil =>
    subst hw
    obtain rfl : u = [] := by simpa using ht
    exact .nil
  | @cons s s₁ s₂ t t₁ w hs hrun ih =>
    subst hw
    obtain ⟨u₀, u₁, rfl, rfl, rfl⟩ := hs.split hrun ht
    rw [List.append_assoc]
    exact .cons (hs.cut hr hr' fun d _ _ _ => Scan.separated_congr (startsElement_letter hc hc' d))
      (ih hr.of_append hr'.of_append rfl rfl)

end Token

end ConfigScript
