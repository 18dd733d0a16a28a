import ConfigScript.Proofs.Occurrences
/-!
# Occurrences in a changed text

The search for occurrences looks no further than to the semicolon of a statement. So when one occurrence gets
another value, the search finds the same ones in front of it, the occurrence itself up to its new semicolon,
and the same ones behind it, moved (`spans_swap`). The traced copy does not show the value at all: it is
the same one as before (`replaceAll_swap`).
-/

namespace ConfigScript

namespace Edit

open Occurrence (lastOr spans shape? rightSide? comparesAfter isGap)

variable {P : Text → Prop} {name t u front gap body body' back back' : Text} {before : Option Char} {offset start stop : Nat}
  {found earlier later : List (Nat × Nat)} {c : Char}

/-! ## One turn of the search -/

/-- The parts of a statement behind its name: blanks up to the equals sign, and a value up to the semicolon. -/
structure Parts (gap body : Text) : Prop where
  gap : ∀ c ∈ gap, isGap c = true
  body : ∀ c ∈ body, c ≠ ';' ∧ c ≠ '\n'

/-- A statement `name = …;` stands in front. -/
inductive Begins (name : Text) : Text → Prop
  | mk {gap body tail : Text} : Parts gap body → Begins name (name ++ (gap ++ '=' :: (body ++ ';' :: tail)))

/-- A statement, spelled out. -/
def statement (name gap body : Text) : Text := name ++ (gap ++ '=' :: (body ++ [';']))

theorem statement_append (name gap body tail : Text) :
    statement name gap body ++ tail = name ++ (gap ++ '=' :: (body ++ ';' :: tail)) := by
  simp [statement]

theorem assigns_statement (h : Parts gap body) : Assigns name (statement name gap body) := .mk h.gap h.body

theorem Parts.ne_sign (h : Parts gap body) : '=' ∉ gap := fun hm => absurd (h.gap _ hm) (by decide)

theorem Parts.takeWhile (h : Parts gap body) (tail : Text) :
    (gap ++ '=' :: tail).takeWhile isGap = gap ∧ (gap ++ '=' :: tail).dropWhile isGap = '=' :: tail := by
  rw [List.takeWhile_append_of_pos h.gap, List.dropWhile_append_of_pos h.gap]
  simp [isGap]

theorem shape?_statement (h : Parts gap body) (tail : Text) :
    shape? name (name ++ (gap ++ '=' :: (body ++ ';' :: tail))) = some (statement name gap body) := by
  have hbody : (body ++ ';' :: tail).takeWhile (fun c => c ≠ ';' && c ≠ '\n') = body := by
    rw [List.takeWhile_append_of_pos fun c hc => by simpa using h.body c hc]
    simp
  have hright : rightSide? (gap ++ '=' :: (body ++ ';' :: tail)) = some ('=' :: body ++ [';']) := by
    rw [rightSide?, (h.takeWhile _).2]
    simp only [hbody, List.drop_left]
  rw [shape?, Text.dropHead?_eq_some.2 rfl]
  simp [hright, (h.takeWhile _).1, statement]

theorem begins_of_shape? (h : shape? name t = some u) : Begins name t := by
  obtain ⟨tail, rfl, @⟨gap, body, hgap, hbody⟩⟩ := shape?_append h
  rw [← statement, statement_append]
  exact .mk ⟨hgap, hbody⟩

theorem comparesAfter_statement (h : Parts gap body) (tail : Text) :
    comparesAfter name (name ++ (gap ++ '=' :: (body ++ ';' :: tail))) = decide (body.head? = some '=') := by
  rw [comparesAfter, List.drop_left, (h.takeWhile _).2]
  cases body with
  | nil => rfl
  | cons d body =>
    by_cases hd : d = '='
    · simp [hd]
    · simp [hd]

/-- Where no statement of the name begins, the search goes on behind one character. -/
theorem spans_skip (h : isWordBoundary before (some c) = true → ¬ Begins name (c :: t)) :
    spans name before offset (c :: t) = spans name (some c) (offset + c.utf8Size) t := by
  rw [spans]
  dsimp only
  split
  · next hboundary =>
    split
    · simp [lastOr, Text.byteLength]
    · next hshape => exact (h hboundary (begins_of_shape? hshape)).elim
  · simp [lastOr, Text.byteLength]

/-- Where one begins it is found, unless it is compared or a field. -/
theorem spans_begins (hn : isIdentifier name = true) (h : Parts gap body) (tail : Text)
    (hb : isWordBoundary before name.head? = true) :
    spans name before offset (name ++ (gap ++ '=' :: (body ++ ';' :: tail))) =
      if body.head? = some '=' ∨ before = some '.' then
        spans name (lastOr before name) (offset + name.byteLength) (gap ++ '=' :: (body ++ ';' :: tail))
      else
        (offset, offset + (statement name gap body).byteLength) ::
          spans name (some ';') (offset + (statement name gap body).byteLength) tail := by
  obtain ⟨a, letters, rfl, -⟩ := exists_head hn
  have hshape := @shape?_statement (a :: letters) gap body h tail
  have hcompares := @comparesAfter_statement (a :: letters) gap body h tail
  rw [List.cons_append] at hshape hcompares ⊢
  rw [spans]
  dsimp only
  rw [if_pos (by simpa using hb), hshape]
  dsimp only
  rw [hcompares]
  simp only [Bool.or_eq_true, decide_eq_true_eq]
  split
  · simp
  · have hstatement : statement (a :: letters) gap body = a :: (letters ++ (gap ++ '=' :: (body ++ [';']))) := rfl
    have hlast : lastOr before (a :: (letters ++ (gap ++ '=' :: (body ++ [';'])))) = some ';' := by
      simp [lastOr, List.getLast?_cons]
    have hcut : letters ++ (gap ++ '=' :: (body ++ ';' :: tail)) = (letters ++ (gap ++ '=' :: (body ++ [';']))) ++ tail := by
      simp
    rw [hstatement, hcut]
    simp only [List.length_cons, Nat.add_sub_cancel, List.take_left, List.drop_left, hlast]

theorem spans_pass (hn : isIdentifier name = true) (h : Parts gap body) (tail : Text)
    (hb : isWordBoundary before name.head? = true) (hp : body.head? = some '=' ∨ before = some '.') :
    spans name before offset (statement name gap body ++ tail) =
      spans name (lastOr before name) (offset + name.byteLength) (gap ++ '=' :: (body ++ ';' :: tail)) := by
  rw [statement_append, spans_begins hn h tail hb, if_pos hp]

theorem spans_found (hn : isIdentifier name = true) (h : Parts gap body) (tail : Text)
    (hb : isWordBoundary before name.head? = true) (hp : ¬ (body.head? = some '=' ∨ before = some '.')) :
    spans name before offset (statement name gap body ++ tail) =
      (offset, offset + (statement name gap body).byteLength) ::
        spans name (some ';') (offset + (statement name gap body).byteLength) tail := by
  rw [statement_append, spans_begins hn h tail hb, if_neg hp]

/-! ## Another value behind the same equals sign -/

/-- A text is cut in one way at the first of a character. -/
theorem append_cons_inj {a b u v : Text} (ha : c ∉ a) (hb : c ∉ b) (h : a ++ c :: u = b ++ c :: v) : a = b ∧ u = v := by
  rcases List.append_eq_append_iff.1 h with ⟨x, rfl, hx⟩ | ⟨x, rfl, hx⟩
  · cases x with
    | nil => exact ⟨by simp, by simpa using hx⟩
    | cons d x =>
      obtain ⟨rfl, -⟩ := List.cons.inj hx
      exact (hb (by simp)).elim
  · cases x with
    | nil => exact ⟨by simp, by simpa [eq_comm] using hx⟩
    | cons d x =>
      obtain ⟨rfl, -⟩ := List.cons.inj hx
      exact (ha (by simp)).elim

theorem not_mem_name (hn : isIdentifier name = true) : ∀ c ∈ name, isGap c = false ∧ c ≠ '=' ∧ c ≠ ';' ∧ c ≠ '\n' := by
  intro c hc
  have hpart := namePart_of_identifier hn c hc
  refine ⟨Bool.eq_false_iff.2 fun hg => ?_, ?_, ?_, ?_⟩
  · rcases Occurrence.isGap_iff.1 hg with rfl | rfl <;> cases hpart
  · rintro rfl
    cases hpart
  · rintro rfl
    cases hpart
  · rintro rfl
    cases hpart

/-- Nothing stands in front of a name where the whole is the name too, blanks behind it aside. -/
theorem eq_nil_of_name {gap₁ : Text} (hn : isIdentifier name = true) (h : ∀ c ∈ gap, isGap c = true)
    (h₁ : ∀ c ∈ gap₁, isGap c = true) (heq : front ++ (name ++ gap) = name ++ gap₁) : front = [] := by
  have hnone : ∀ g : Text, (∀ c ∈ g, isGap c = true) → g.filter (fun c => !isGap c) = [] := fun g hg => by
    simpa using hg
  -- without the blanks both sides are as long as the name
  have hlen := congrArg (fun t => (t.filter fun c => !isGap c).length) heq
  simp only [List.filter_append, hnone _ h, hnone _ h₁, List.length_append, List.length_nil] at hlen
  have hzero : (front.filter fun c => !isGap c) = [] := List.eq_nil_of_length_eq_zero (by omega)
  have hfront : ∀ c ∈ front, isGap c = true := by simpa using hzero
  cases front with
  | nil => rfl
  | cons d front =>
    obtain ⟨a, letters, hname, -⟩ := exists_head hn
    rw [hname] at heq
    obtain ⟨rfl, -⟩ := List.cons.inj heq
    have hgap := hfront _ List.mem_cons_self
    rw [(not_mem_name hn d (by simp [hname])).1] at hgap
    cases hgap

theorem Parts.sign_not_mem (hn : isIdentifier name = true) (h : Parts gap body) : '=' ∉ name ++ gap := by
  simp only [List.mem_append, not_or]
  exact ⟨fun hm => (not_mem_name hn _ hm).2.1 rfl, h.ne_sign⟩

theorem Parts.semicolon_not_mem (hn : isIdentifier name = true) (h : Parts gap body) :
    ';' ∉ name ++ (gap ++ '=' :: body) := by
  simp only [List.mem_append, List.mem_cons, not_or]
  exact ⟨fun hm => (not_mem_name hn _ hm).2.2.1 rfl, fun hm => absurd (h.gap _ hm) (by decide), by decide,
    fun hm => (h.body _ hm).1 rfl⟩

/-- A statement that begins in front of another one ends in front of it, or has all of it in its value. -/
theorem begins_append {gap₁ body₁ tail₁ : Text} (hn : isIdentifier name = true) (h : Parts gap body)
    (h₁ : Parts gap₁ body₁) (hf : front ≠ [])
    (hcut : front ++ (name ++ (gap ++ '=' :: (body ++ ';' :: back))) = name ++ (gap₁ ++ '=' :: (body₁ ++ ';' :: tail₁))) :
    (∃ middle, front = statement name gap₁ body₁ ++ middle ∧
      tail₁ = middle ++ (name ++ (gap ++ '=' :: (body ++ ';' :: back)))) ∨
    ∃ middle, front = name ++ (gap₁ ++ '=' :: middle) ∧ body₁ = middle ++ (name ++ (gap ++ '=' :: body)) ∧ tail₁ = back := by
  obtain ⟨a, letters, hname, ha⟩ := exists_head hn
  rw [← List.append_assoc name gap₁] at hcut
  rcases List.append_eq_append_iff.1 hcut with ⟨x, hx, hrest⟩ | ⟨x, rfl, hrest⟩
  · -- the two would have one equals sign, and then one name
    rw [← List.append_assoc] at hrest
    have hx' : '=' ∉ x := fun hm => h₁.sign_not_mem hn (hx ▸ List.mem_append_right front hm)
    obtain ⟨rfl, -⟩ := append_cons_inj (h.sign_not_mem hn) hx' hrest
    exact (hf (eq_nil_of_name hn h.gap h₁.gap hx.symm)).elim
  · cases x with
    | nil =>
      rw [hname] at hrest
      obtain ⟨rfl, -⟩ := List.cons.inj hrest
      cases ha
    | cons d x =>
      obtain ⟨rfl, hvalue⟩ := List.cons.inj hrest
      rcases List.append_eq_append_iff.1 hvalue with ⟨y, rfl, hy⟩ | ⟨y, rfl, hy⟩
      · cases y with
        | nil =>
          rw [hname] at hy
          obtain ⟨rfl, -⟩ := List.cons.inj hy
          cases ha
        | cons e y =>
          obtain ⟨rfl, rfl⟩ := List.cons.inj hy
          exact .inl ⟨y, by simp [statement], rfl⟩
      · have hy' : ';' ∉ y := fun hm => (h₁.body _ (List.mem_append_right x hm)).1 rfl
        have hcut' : (name ++ (gap ++ '=' :: body)) ++ ';' :: back = y ++ ';' :: tail₁ := by simpa using hy
        obtain ⟨rfl, rfl⟩ := append_cons_inj (h.semicolon_not_mem hn) hy' hcut'
        exact .inr ⟨x, by simp, rfl, rfl⟩

/-- A value that has a statement in it, and then the statement has another value. -/
theorem Parts.swap {gap₁ middle : Text} (hn : isIdentifier name = true) (h' : Parts gap body')
    (h : Parts gap₁ (middle ++ (name ++ (gap ++ '=' :: body)))) : Parts gap₁ (middle ++ (name ++ (gap ++ '=' :: body'))) := by
  refine ⟨h.gap, fun c hc => ?_⟩
  simp only [List.mem_append, List.mem_cons] at hc
  rcases hc with hc | hc | hc | rfl | hc
  · exact h.body c (by simp [hc])
  · exact (not_mem_name hn c hc).2.2
  · exact h.body c (by simp [hc])
  · decide
  · exact h'.body c hc

/-- What begins in front of a statement begins there too if the statement has another value. -/
theorem Begins.swap (hn : isIdentifier name = true) (h : Parts gap body) (h' : Parts gap body') (hf : front ≠ [])
    (hb : Begins name (front ++ (name ++ (gap ++ '=' :: (body ++ ';' :: back))))) :
    Begins name (front ++ (name ++ (gap ++ '=' :: (body' ++ ';' :: back')))) := by
  generalize hcut : front ++ (name ++ (gap ++ '=' :: (body ++ ';' :: back))) = t at hb
  obtain @⟨gap₁, body₁, tail₁, h₁⟩ := hb
  rcases begins_append hn h h₁ hf hcut with ⟨middle, rfl, -⟩ | ⟨middle, rfl, rfl, -⟩
  · rw [List.append_assoc, statement_append]
    exact .mk h₁
  · have hmk := @Begins.mk name _ _ back' (h'.swap hn h₁)
    simpa using hmk

/-- Nothing is found in front of where the search starts. -/
theorem le_of_mem_spans (hn : isIdentifier name = true) (h : (start, stop) ∈ spans name before offset t) :
    offset ≤ start := by
  obtain ⟨front, _, _, -, -, -, rfl, -⟩ := (spans_spread hn before offset t).mem h
  exact Nat.le_add_right _ _

theorem Spread.cons_pass (h : Spread P (some c) (offset + c.utf8Size) t found) : Spread P before offset (c :: t) found := by
  have hpass : Spread P (lastOr before [c]) (offset + Text.byteLength [c]) t found := h
  exact hpass.pass

theorem opens_of_mem_spans (hn : isIdentifier name = true) (h : (offset, stop) ∈ spans name before offset t) :
    Opens before := by
  obtain ⟨front, _, _, -, hopens, -, hstart, -⟩ := (spans_spread hn before offset t).mem h
  cases front with
  | nil => simpa [lastOr] using hopens
  | cons d front =>
    have hpos := Text.byteLength_pos (List.cons_ne_nil d front)
    omega

/-- How the search goes on from the front of a text that a statement follows, whichever of two values it has. -/
inductive Turn (name : Text) (before : Option Char) (offset : Nat) (last last' : Text) : Text → Prop
  | skip {c : Char} {front : Text} :
    (∀ t ∈ [last, last'], spans name before offset (c :: (front ++ t)) =
      spans name (some c) (offset + c.utf8Size) (front ++ t)) →
    Turn name before offset last last' (c :: front)
  | pass {front : Text} :
    (∀ t ∈ [last, last'], spans name before offset (name ++ (front ++ t)) =
      spans name (lastOr before name) (offset + name.byteLength) (front ++ t)) →
    Turn name before offset last last' (name ++ front)
  | found {span front : Text} : Assigns name span → Opens before →
    (∀ t ∈ [last, last'], spans name before offset (span ++ (front ++ t)) =
      (offset, offset + span.byteLength) :: spans name (some ';') (offset + span.byteLength) (front ++ t)) →
    Turn name before offset last last' (span ++ front)
  | beyond {front : Text} {stop : Nat} {back : Text} : offset + front.byteLength < stop →
    spans name before offset (front ++ last) = (offset, stop) :: spans name (some ';') stop back →
    Turn name before offset last last' front

theorem turn (hn : isIdentifier name = true) (h : Parts gap body) (h' : Parts gap body') (c : Char) (front : Text) :
    Turn name before offset (name ++ (gap ++ '=' :: (body ++ ';' :: back)))
      (name ++ (gap ++ '=' :: (body' ++ ';' :: back'))) (c :: front) := by
  by_cases hb : isWordBoundary before (some c) = true ∧
      Begins name (c :: front ++ (name ++ (gap ++ '=' :: (body ++ ';' :: back))))
  · obtain ⟨hb, hbegins⟩ := hb
    generalize hcut : c :: front ++ (name ++ (gap ++ '=' :: (body ++ ';' :: back))) = t at hbegins
    obtain @⟨gap₁, body₁, tail₁, h₁⟩ := hbegins
    have hhead : isWordBoundary before name.head? = true := by
      obtain ⟨a, letters, rfl, -⟩ := exists_head hn
      obtain ⟨rfl, -⟩ := List.cons.inj hcut
      exact hb
    rcases begins_append hn h h₁ (List.cons_ne_nil c front) hcut with ⟨middle, hfront, -⟩ | ⟨middle, hfront, rfl, -⟩
    · -- the statement that begins here ends here
      rw [hfront]
      by_cases hpass : body₁.head? = some '=' ∨ before = some '.'
      · rw [statement_append]
        refine .pass fun t _ => ?_
        have ht := @spans_pass _ _ _ before offset hn h₁ (middle ++ t) hhead hpass
        simpa [statement] using ht
      · have hfound := fun t => @spans_found _ _ _ before offset hn h₁ (middle ++ t) hhead hpass
        exact .found (assigns_statement h₁) (opens_of_mem_spans hn (hfound [] ▸ List.mem_cons_self)) fun t _ => hfound t
    · -- it reaches over the one behind
      have hcut : ∀ body back, name ++ (gap₁ ++ '=' :: middle) ++ (name ++ (gap ++ '=' :: (body ++ ';' :: back))) =
          statement name gap₁ (middle ++ (name ++ (gap ++ '=' :: body))) ++ back := by
        simp [statement]
      rw [hfront]
      by_cases hpass : (middle ++ (name ++ (gap ++ '=' :: body))).head? = some '=' ∨ before = some '.'
      · have hpass' : (middle ++ (name ++ (gap ++ '=' :: body'))).head? = some '=' ∨ before = some '.' := by
          refine hpass.imp_left fun hhead => ?_
          obtain ⟨a, letters, rfl, -⟩ := exists_head hn
          cases middle <;> simpa using hhead
        refine .pass fun t ht => ?_
        rw [← List.append_assoc]
        rcases List.mem_pair.1 ht with rfl | rfl
        · rw [hcut, spans_pass hn h₁ back hhead hpass]
          simp
        · rw [hcut, spans_pass hn (h'.swap hn h₁) back' hhead hpass']
          simp
      · refine .beyond ?_ (hcut body back ▸ spans_found hn h₁ back hhead hpass)
        simp only [statement, Text.byteLength_append, Text.byteLength]
        have hsize := Char.utf8Size_pos ';'
        omega
  · refine .skip fun t ht => spans_skip fun hboundary hbegins => hb ⟨hboundary, ?_⟩
    rcases List.mem_pair.1 ht with rfl | rfl
    · exact hbegins
    · exact Begins.swap hn h' h (List.cons_ne_nil c front) hbegins

/-- What is found first is the occurrence in question, or the search finds that one behind it. -/
theorem found_cases {first last : Nat} (hn : isIdentifier name = true)
    (h : (first, last) :: spans name before last t = earlier ++ (start, stop) :: later) :
    (earlier = [] ∧ start = first ∧ stop = last ∧ later = spans name before last t) ∨
      ∃ others, earlier = (first, last) :: others ∧ spans name before last t = others ++ (start, stop) :: later ∧
        last ≤ start := by
  cases earlier with
  | nil =>
    obtain ⟨hspan, rfl⟩ := List.cons.inj h
    obtain ⟨rfl, rfl⟩ := Prod.mk.inj hspan
    exact .inl ⟨rfl, rfl, rfl, rfl⟩
  | cons e others =>
    obtain ⟨rfl, hrest⟩ := List.cons.inj h
    have hmem : (start, stop) ∈ spans name before last t := by simp [hrest]
    exact .inr ⟨others, rfl, hrest, le_of_mem_spans hn hmem⟩

/-- A statement that is found where the search starts is found there with another value too. -/
theorem spans_swap_here (hn : isIdentifier name = true) (h : Parts gap body) (h' : Parts gap body')
    (hv : body'.head? ≠ some '=')
    (hfound : spans name before start (statement name gap body ++ back) = earlier ++ (start, stop) :: later) :
    earlier = [] ∧ stop = start + (statement name gap body).byteLength ∧ later = spans name (some ';') stop back ∧
      spans name before start (statement name gap body' ++ back') =
        (start, start + (statement name gap body').byteLength) ::
          spans name (some ';') (start + (statement name gap body').byteLength) back' := by
  have hmem : (start, stop) ∈ spans name before start (statement name gap body ++ back) := by simp [hfound]
  obtain ⟨a, letters, hname, -⟩ := exists_head hn
  have hb : isWordBoundary before name.head? = true := by
    by_contra hb
    rw [hname, List.head?_cons] at hb
    rw [statement_append, hname, List.cons_append, spans_skip fun hboundary => (hb hboundary).elim, ← hname] at hmem
    have hle := le_of_mem_spans hn hmem
    have hpos := a.utf8Size_pos
    omega
  have hpass : ¬ (body.head? = some '=' ∨ before = some '.') := fun hpass => by
    rw [spans_pass hn h back hb hpass] at hmem
    have hle := le_of_mem_spans hn hmem
    have hpos : 0 < name.byteLength := Text.byteLength_pos (by simp [hname])
    omega
  rw [spans_found hn h back hb hpass] at hfound
  obtain ⟨rfl, -, rfl, rfl⟩ | ⟨others, -, -, hle⟩ := found_cases hn hfound
  · exact ⟨rfl, rfl, rfl, spans_found hn h' back' hb (by tauto)⟩
  · have hpos : 0 < (statement name gap body).byteLength := Text.byteLength_pos (by simp [statement])
    omega

/-- A statement with another value is found where it was, and what is found in front of it stays. -/
theorem spans_swap (hn : isIdentifier name = true) (h : Parts gap body) (h' : Parts gap body')
    (hv : body'.head? ≠ some '=') (hstart : start = offset + front.byteLength)
    (hfound : spans name before offset (front ++ (name ++ (gap ++ '=' :: (body ++ ';' :: back)))) =
      earlier ++ (start, stop) :: later) :
    Spread (Assigns name) before offset front earlier ∧ stop = start + (statement name gap body).byteLength ∧
      later = spans name (some ';') stop back ∧
      spans name before offset (front ++ (name ++ (gap ++ '=' :: (body' ++ ';' :: back')))) =
        earlier ++ (start, start + (statement name gap body').byteLength) ::
          spans name (some ';') (start + (statement name gap body').byteLength) back' := by
  induction hl : front.length using Nat.strongRecOn generalizing before offset front earlier with
  | ind n ih =>
    subst hl
    cases front with
    | nil =>
      obtain rfl : start = offset := by simpa [Text.byteLength] using hstart
      rw [List.nil_append, ← statement_append] at hfound ⊢
      obtain ⟨rfl, hstop, hlater, hswap⟩ := spans_swap_here hn h h' hv hfound
      exact ⟨.done, hstop, hlater, hswap⟩
    | cons c front =>
      have hturn := @turn name gap body body' back back' before offset hn h h' c front
      have ih := fun (f : Text) hlt before offset earlier hstart hfound =>
        @ih f.length hlt f before offset earlier hstart hfound rfl
      generalize name ++ (gap ++ '=' :: (body ++ ';' :: back)) = last at hturn hfound ih
      generalize name ++ (gap ++ '=' :: (body' ++ ';' :: back')) = last' at hturn ih ⊢
      have hpair : last ∈ [last, last'] ∧ last' ∈ [last, last'] := by simp
      generalize hwhole : c :: front = whole at hturn hfound hstart ih ⊢
      cases hturn with
      | @skip d front hs =>
        rw [List.cons_append, hs _ hpair.1] at hfound
        obtain ⟨hspread, hstop, hlater, hswap⟩ := ih front (Nat.lt_succ_self _) _ _ earlier
          (by rw [hstart, Text.byteLength]; omega) hfound
        exact ⟨hspread.cons_pass, hstop, hlater, by rw [List.cons_append, hs _ hpair.2, hswap]⟩
      | @pass front hs =>
        rw [List.append_assoc, hs _ hpair.1] at hfound
        have hshort : front.length < (name ++ front).length := by
          obtain ⟨a, letters, rfl, -⟩ := exists_head hn
          simp only [List.cons_append, List.length_cons, List.length_append]
          omega
        obtain ⟨hspread, hstop, hlater, hswap⟩ := ih front hshort _ _ earlier
          (by rw [hstart, Text.byteLength_append]; omega) hfound
        exact ⟨hspread.pass, hstop, hlater, by rw [List.append_assoc, hs _ hpair.2, hswap]⟩
      | @found span front hspan hopens hs =>
        have hlast : span ≠ [] ∧ lastOr before span = some ';' := by
          rcases hspan
          simp [lastOr, List.getLast?_cons, List.getLast?_append]
        rw [Text.byteLength_append] at hstart
        rw [List.append_assoc, hs _ hpair.1] at hfound
        obtain ⟨-, hfirst, -, -⟩ | ⟨others, rfl, hrest, -⟩ := found_cases hn hfound
        · have hpos := Text.byteLength_pos hlast.1
          omega
        · have hshort : front.length < (span ++ front).length := by
            rw [List.length_append]
            exact Nat.lt_add_of_pos_left (List.length_pos_iff.2 hlast.1)
          obtain ⟨hspread, hstop, hlater, hswap⟩ := ih front hshort _ _ others (by omega) hrest
          refine ⟨?_, hstop, hlater, by rw [List.append_assoc, hs _ hpair.2, hswap]; rfl⟩
          have hnext := @Spread.next (Assigns name) before offset [] span front others hopens hspan
          rw [List.nil_append, hlast.2] at hnext
          exact hnext hspread
      | @beyond _ stop' back hlt hs =>
        rw [hs] at hfound
        obtain ⟨-, hfirst, -, -⟩ | ⟨others, -, -, hle⟩ := found_cases hn hfound
        · have hpos := Text.byteLength_pos (List.cons_ne_nil c front)
          rw [hwhole] at hpos
          omega
        · omega

/-! ## The search as an induction -/

theorem spans_nil (name : Text) (before : Option Char) (offset : Nat) : spans name before offset [] = [] := by
  rw [spans]

/-- What holds of the empty text and goes over each turn of the search holds of every text. -/
theorem spans_induction (hn : isIdentifier name = true) {R : Option Char → Text → Prop} (nil : ∀ before, R before [])
    (skip : ∀ before c t, (isWordBoundary before (some c) = true → ¬ Begins name (c :: t)) → R (some c) t →
      R before (c :: t))
    (pass : ∀ before gap body tail, Parts gap body → isWordBoundary before name.head? = true →
      body.head? = some '=' ∨ before = some '.' → R (lastOr before name) (gap ++ '=' :: (body ++ ';' :: tail)) →
      R before (statement name gap body ++ tail))
    (found : ∀ before gap body tail, Parts gap body → isWordBoundary before name.head? = true →
      ¬ (body.head? = some '=' ∨ before = some '.') → R (some ';') tail → R before (statement name gap body ++ tail))
    (before : Option Char) (t : Text) : R before t := by
  induction hl : t.length using Nat.strongRecOn generalizing before t with
  | ind n ih =>
    subst hl
    cases t with
    | nil => exact nil before
    | cons c t =>
      by_cases hb : isWordBoundary before (some c) = true ∧ Begins name (c :: t)
      · obtain ⟨hb, hbegins⟩ := hb
        generalize hcut : c :: t = whole at hbegins ih ⊢
        obtain @⟨gap, body, tail, h⟩ := hbegins
        obtain ⟨a, letters, rfl, -⟩ := exists_head hn
        obtain ⟨rfl, -⟩ := List.cons.inj hcut
        rw [← statement_append] at ih ⊢
        by_cases hpass : body.head? = some '=' ∨ before = some '.'
        · refine pass _ _ _ _ h hb hpass (ih _ ?_ _ _ rfl)
          simp only [statement, List.length_append, List.length_cons]
          omega
        · refine found _ _ _ _ h hb hpass (ih _ ?_ _ _ rfl)
          simp only [statement, List.length_append, List.length_cons]
          omega
      · exact skip _ _ _ (fun hboundary hbegins => hb ⟨hboundary, hbegins⟩) (ih _ (Nat.lt_succ_self _) _ _ rfl)

/-- A span so many bytes further on. -/
def shift (k : Nat) (span : Nat × Nat) : Nat × Nat := (k + span.1, k + span.2)

theorem spans_shift (hn : isIdentifier name = true) (k offset : Nat) (before : Option Char) (t : Text) :
    spans name before (k + offset) t = (spans name before offset t).map (shift k) := by
  induction before, t using spans_induction hn generalizing offset with
  | nil => simp [spans_nil]
  | skip before c t h ih => rw [spans_skip h, spans_skip h, Nat.add_assoc, ih]
  | pass before gap body tail h hb hp ih => rw [spans_pass hn h tail hb hp, spans_pass hn h tail hb hp, Nat.add_assoc, ih]
  | found before gap body tail h hb hp ih =>
    rw [spans_found hn h tail hb hp, spans_found hn h tail hb hp, Nat.add_assoc, ih]
    rfl

theorem Begins.of_concat (hc : c ≠ ';') (h : Begins name (t ++ [c])) : Begins name t := by
  generalize hcut : t ++ [c] = whole at h
  obtain @⟨gap, body, tail, h⟩ := h
  rw [← statement_append] at hcut
  rcases List.eq_nil_or_concat tail with rfl | ⟨tail, d, rfl⟩
  · have hlast := congrArg List.getLast? hcut
    simp only [List.append_nil, List.getLast?_concat, statement] at hlast
    simp [List.getLast?_append, List.getLast?_cons, hc] at hlast
  · rw [List.concat_eq_append, ← List.append_assoc] at hcut
    obtain ⟨rfl, -⟩ := List.append_inj' hcut rfl
    rw [statement_append]
    exact .mk h

/-- A line break or a blank at the end of the text changes nothing. -/
theorem spans_concat (hn : isIdentifier name = true) (hc : c = '\n' ∨ c = ' ') (offset : Nat) (before : Option Char)
    (t : Text) : spans name before offset (t ++ [c]) = spans name before offset t := by
  have hne : c ≠ ';' := by rcases hc with rfl | rfl <;> decide
  induction before, t using spans_induction hn generalizing offset with
  | nil before =>
    have hno : ¬ Begins name [c] := fun h => by
      have hnil := Begins.of_concat (t := []) hne h
      generalize hcut : ([] : Text) = whole at hnil
      cases hnil
      simp at hcut
    rw [List.nil_append, spans_skip fun _ => hno, spans_nil, spans_nil]
  | skip before d t h ih =>
    have h' : isWordBoundary before (some d) = true → ¬ Begins name (d :: (t ++ [c])) := fun hb hbegins =>
      h hb (Begins.of_concat (t := d :: t) hne hbegins)
    rw [List.cons_append, spans_skip h', spans_skip h, ih]
  | pass before gap body tail h hb hp ih =>
    have ih := ih (offset + name.byteLength)
    rw [List.append_assoc, spans_pass hn h _ hb hp, spans_pass hn h _ hb hp, ← ih]
    simp
  | found before gap body tail h hb hp ih => rw [List.append_assoc, spans_found hn h _ hb hp, spans_found hn h _ hb hp, ih]

/-! ## The traced copy -/

/-- Spans as occurrences, counted from `n`. -/
def numbered (n : Nat) : List (Nat × Nat) → List Occurrence
  | [] => []
  | (start, stop) :: found => ⟨start, stop, n⟩ :: numbered (n + 1) found

theorem find_eq_numbered (masked name : Text) : Occurrence.find masked name = numbered 1 (spans name none 0 masked) := by
  have hall : ∀ (found : List (Nat × Nat)) (n : Nat),
      (found.mapIdx fun i span => (⟨span.1, span.2, i + n⟩ : Occurrence)) = numbered n found := by
    intro found
    induction found with
    | nil => exact fun _ => rfl
    | cons span found ih =>
      intro n
      rw [List.mapIdx_cons, numbered, ← ih (n + 1), Nat.zero_add]
      refine congrArg (_ :: ·) (congrArg (List.mapIdx · found) (funext fun i => ?_))
      simp only [Nat.add_assoc, Nat.add_comm 1 n]
  exact hall _ 1

theorem numbered_append (n : Nat) (found more : List (Nat × Nat)) :
    numbered n (found ++ more) = numbered n found ++ numbered (n + found.length) more := by
  induction found generalizing n with
  | nil => rfl
  | cons span found ih => simp [numbered, ih, Nat.add_assoc, Nat.add_comm 1]

theorem length_numbered (n : Nat) (found : List (Nat × Nat)) : (numbered n found).length = found.length := by
  induction found generalizing n with
  | nil => rfl
  | cons span found ih => simp [numbered, ih]

/-- The text in which occurrences of a text are replaced does not depend on what stands around the text. -/
theorem Spread.replaced (h : Spread (Assigns name) before offset t found) (n : Nat) :
    ∃ u, (t.getLast? = some ' ' → u.getLast? = some ' ') ∧
      ∀ (k : Nat) (front back : Text), front.byteLength = k + offset →
        replaceAll (front ++ (t ++ back)) (numbered n (found.map (shift k))) = front ++ (u ++ back) := by
  induction h generalizing n with
  | @done _ _ t => exact ⟨t, id, fun _ _ _ _ => rfl⟩
  | @next before offset gap span tail found _ hspan _ ih =>
    obtain ⟨u, hlast, hu⟩ := ih (n + 1)
    refine ⟨gap ++ (appendId n ++ u), fun h => ?_, fun k front back hfront => ?_⟩
    · have hsemi : span.getLast? = some ';' := by
        rcases hspan
        simp [List.getLast?_cons, List.getLast?_append]
      have htail : tail.getLast? = some ' ' := by
        rw [List.getLast?_append, List.getLast?_append, hsemi] at h
        cases ht : tail.getLast? with
        | none => simp [ht] at h
        | some d => simpa [ht] using h
      simp [List.getLast?_append, hlast htail]
    · have hrest := hu k (front ++ (gap ++ span)) back (by rw [Text.byteLength_append, hfront, Nat.add_assoc])
      have hreplaced := @replaceAll_cons (front ++ (gap ++ (span ++ tail) ++ back)) ⟨k + (offset + gap.byteLength),
        k + (offset + (gap ++ span).byteLength), n⟩ (numbered (n + 1) (found.map (shift k))) (front ++ gap) span (u ++ back)
        (by simp only [Text.byteLength_append, hfront, Nat.add_assoc])
        (by simp only [Text.byteLength_append, hfront, Nat.add_assoc]) (by simpa using hrest)
      rw [List.append_assoc] at hreplaced
      rw [List.map_cons, numbered]
      simpa [shift] using hreplaced

theorem mem_numbered {n : Nat} {o : Occurrence} (h : o ∈ numbered n found) :
    ∃ earlier later, found = earlier ++ (o.start, o.stop) :: later ∧ o.id = n + earlier.length := by
  induction found generalizing n with
  | nil => cases h
  | cons span found ih =>
    rcases List.mem_cons.1 h with rfl | h
    · exact ⟨[], found, rfl, rfl⟩
    · obtain ⟨earlier, later, rfl, hid⟩ := ih h
      exact ⟨span :: earlier, later, rfl, by rw [hid, List.length_cons]; omega⟩

theorem find?_numbered (n : Nat) (earlier later : List (Nat × Nat)) (span : Nat × Nat) :
    (numbered n (earlier ++ span :: later)).find? (·.id = n + earlier.length) =
      some ⟨span.1, span.2, n + earlier.length⟩ := by
  induction earlier generalizing n with
  | nil => simp [numbered]
  | cons first earlier ih =>
    have ih := ih (n + 1)
    rw [Nat.add_assoc, Nat.add_comm 1] at ih
    simp [numbered, ih]

/-- What replaces the occurrences of a text does not depend on how one of them is spelled. -/
theorem replaceAll_around (hn : isIdentifier name = true) (hearlier : Spread (Assigns name) none 0 front earlier)
    (back : Text) : ∃ left right, (back.getLast? = some ' ' → right.getLast? = some ' ') ∧
      ∀ span more : Text, replaceAll (front ++ (span ++ (back ++ more))) (numbered 1 (earlier ++
        (front.byteLength, front.byteLength + span.byteLength) ::
          spans name (some ';') (front.byteLength + span.byteLength) back)) =
        left ++ (appendId (1 + earlier.length) ++ (right ++ more)) := by
  obtain ⟨left, -, hleft⟩ := hearlier.replaced 1
  obtain ⟨right, hlast, hright⟩ := (spans_spread hn (some ';') 0 back).replaced (1 + earlier.length + 1)
  refine ⟨left, right, hlast, fun span more => ?_⟩
  have hshift := spans_shift hn (front.byteLength + span.byteLength) 0 (some ';') back
  rw [Nat.add_zero] at hshift
  have hbehind := hright (front.byteLength + span.byteLength) (front ++ span) more (Text.byteLength_append front span)
  rw [← hshift] at hbehind
  have hhere := @replaceAll_cons (front ++ (span ++ (back ++ more)))
    ⟨front.byteLength, front.byteLength + span.byteLength, 1 + earlier.length⟩
    (numbered (1 + earlier.length + 1) (spans name (some ';') (front.byteLength + span.byteLength) back))
    front span (right ++ more) rfl (Text.byteLength_append front span).symm (by simpa using hbehind)
  have hzero : earlier.map (shift 0) = earlier := by
    have hid : shift 0 = id := by
      funext span
      simp [shift]
    rw [hid, List.map_id]
  have hfront := hleft 0 [] (appendId (1 + earlier.length) ++ (right ++ more)) rfl
  rw [hzero, List.nil_append] at hfront
  rw [numbered_append, replaceAll, List.foldr_append]
  exact (congrArg (List.foldr _ · (numbered 1 earlier)) hhere).trans hfront

/-- With another value for one occurrence, and perhaps a line break or a blank more at the end, the text in which
all are replaced is the same one, the occurrences are as many, and this one is counted as before. -/
theorem replaceAll_swap {o : Occurrence} {masked masked' ending : Text} (hn : isIdentifier name = true)
    (h : Parts gap body) (h' : Parts gap body') (hv : body'.head? ≠ some '=')
    (he : ending = [] ∨ ending = ['\n'] ∨ ending = [' '])
    (hm : masked = front ++ (statement name gap body ++ back))
    (hm' : masked' = front ++ (statement name gap body' ++ (back ++ ending)))
    (ho : o ∈ Occurrence.find masked name) (hstart : o.start = front.byteLength) :
    (∃ left right, (back.getLast? = some ' ' → right.getLast? = some ' ') ∧
      replaceAll masked (Occurrence.find masked name) = left ++ (appendId o.id ++ right) ∧
      replaceAll masked' (Occurrence.find masked' name) = left ++ (appendId o.id ++ (right ++ ending))) ∧
    (Occurrence.find masked' name).length = (Occurrence.find masked name).length ∧
    (Occurrence.find masked' name).find? (·.id = o.id) =
      some ⟨o.start, o.start + (statement name gap body').byteLength, o.id⟩ := by
  have hspans := find_eq_numbered masked name
  rw [hspans] at ho
  obtain ⟨earlier, later, hcut, hid⟩ := mem_numbered ho
  have hcut' := hcut
  rw [hm, statement_append] at hcut'
  obtain ⟨hspread, hstop, hlater, hswap⟩ := @spans_swap name front gap body body' back (back ++ ending) none 0 o.start
    o.stop earlier later hn h h' hv (by rw [hstart, Nat.zero_add]) hcut'
  have hending : ∀ offset, spans name (some ';') offset (back ++ ending) = spans name (some ';') offset back := by
    intro offset
    rcases he with rfl | rfl | rfl
    · rw [List.append_nil]
    · exact spans_concat hn (.inl rfl) offset _ back
    · exact spans_concat hn (.inr rfl) offset _ back
  rw [← statement_append, hending, ← hm'] at hswap
  have hspans' := find_eq_numbered masked' name
  rw [hcut, hlater, hstop] at hspans
  rw [hswap] at hspans'
  obtain ⟨left, right, hlast, haround⟩ := replaceAll_around hn hspread back
  rw [← hstart] at haround
  have hbefore := haround (statement name gap body) []
  have hafter := haround (statement name gap body') ending
  rw [List.append_nil, List.append_nil, ← hspans, ← hm, ← hid] at hbefore
  rw [← hspans', ← hm', ← hid] at hafter
  refine ⟨⟨left, right, hlast, hbefore, hafter⟩, ?_, ?_⟩
  · have hshift := fun offset => spans_shift hn offset 0 (some ';') back
    simp only [Nat.add_zero] at hshift
    rw [hspans, hspans', length_numbered, length_numbered, hshift (o.start + (statement name gap body').byteLength),
      hshift (o.start + (statement name gap body).byteLength)]
    simp
  · rw [hspans', hid]
    exact find?_numbered 1 earlier _ _

end Edit

end ConfigScript
