import ConfigScript.Proofs.Masked
/-!
# The state of the mask behind a text

A mask that goes over one text and then over another goes over both of them, unless three dots reach
from the one into the other (`scan_append`, `after_append`). So masked text is put together from its
pieces (`hide_append`), and a character that it shows tells where the script is cut and in which state
the mask comes there (`hide_eq_append_cons`).
-/

namespace ConfigScript

namespace Edit

open Token Mask

/-- The state of the mask behind a text. -/
def Mask.after (m : State) : Text → State
  | [] => m
  | '.' :: '.' :: '.' :: t =>
    if m.code then after m.continued t else after (m.next '.') ('.' :: '.' :: t)
  | c :: t => after (m.next c) t

/-- What masking from this state on makes of a text. -/
def hide (m : State) (t : Text) : Text := apply (scan m t) t

/-- No three dots reach from the first text into the second. -/
def Parted (u v : Text) : Prop :=
  ∀ y, y <:+ u → y ≠ [] → startsContinuation (y ++ v) = true → startsContinuation y = true

variable {m : State} {t u v front back : Text} {c : Char}

theorem sanitize_eq_hide (script : Text) : sanitize script = hide .start script := rfl

/-! ## One character further -/

theorem after_dots (h : m.code = true) (t : Text) : after m ('.' :: '.' :: '.' :: t) = after m.continued t := by
  rw [Mask.after, if_pos h]

theorem after_cons (h : ¬ (m.code = true ∧ startsContinuation (c :: t) = true)) :
    after m (c :: t) = after (m.next c) t := by
  rw [Mask.after.eq_def m (c :: t)]
  split
  · next heq => cases heq
  · next heq =>
    cases heq
    rw [if_neg fun hc => h ⟨hc, rfl⟩]
  · next heq =>
    cases heq
    rfl

theorem hide_dots (h : m.code = true) (t : Text) :
    hide m ('.' :: '.' :: '.' :: t) = ' ' :: ' ' :: ' ' :: hide m.continued t := by
  rw [hide, Mask.scan, if_pos h]
  rfl

theorem hide_cons (h : ¬ (m.code = true ∧ startsContinuation (c :: t) = true)) :
    hide m (c :: t) = applyTo (m.mark c) c ++ hide (m.next c) t := by
  rw [hide, scan_of_not_dots h]
  rfl

theorem startsContinuation_iff : startsContinuation t = true ↔ ∃ u, t = '.' :: '.' :: '.' :: u := by
  unfold startsContinuation
  split
  · simp
  · next hne =>
    refine ⟨nofun, ?_⟩
    rintro ⟨u, rfl⟩
    exact (hne u rfl).elim

/-- A text is empty, begins a continuation, or begins with a character that the mask goes over alone. -/
theorem mask_cases (m : State) (t : Text) :
    t = [] ∨ (∃ u, m.code = true ∧ t = '.' :: '.' :: '.' :: u) ∨
      ∃ c u, t = c :: u ∧ ¬ (m.code = true ∧ startsContinuation (c :: u) = true) := by
  cases t with
  | nil => exact .inl rfl
  | cons c u =>
    by_cases h : m.code = true ∧ startsContinuation (c :: u) = true
    · obtain ⟨v, hv⟩ := startsContinuation_iff.1 h.2
      exact .inr (.inl ⟨v, h.1, hv⟩)
    · exact .inr (.inr ⟨c, u, rfl, h⟩)

/-- What holds of the empty text, goes over from what is behind a continuation's dots and from what is
behind any other character, holds of every text. -/
theorem mask_induction {P : State → Text → Prop} (nil : ∀ m, P m [])
    (dots : ∀ m t, m.code = true → P m.continued t → P m ('.' :: '.' :: '.' :: t))
    (cons : ∀ m c t, ¬ (m.code = true ∧ startsContinuation (c :: t) = true) → P (m.next c) t → P m (c :: t))
    (m : State) (t : Text) : P m t := by
  induction hn : t.length using Nat.strongRecOn generalizing m t with
  | ind n ih =>
    subst hn
    rcases mask_cases m t with rfl | ⟨u, hcode, rfl⟩ | ⟨c, u, rfl, h⟩
    · exact nil m
    · exact dots m u hcode (ih u.length (by simp only [List.length_cons]; omega) _ u rfl)
    · exact cons m c u h (ih u.length (Nat.lt_succ_self _) _ u rfl)

/-! ## The depth of brackets -/

theorem natAbs_depth_next (m : State) (c : Char) : (m.next c).depth.natAbs ≤ m.depth.natAbs + 1 := by
  have hquote : (m.afterQuote c).depth = m.depth := by
    unfold State.afterQuote
    split
    · split
      · rfl
      · split <;> rfl
    · rfl
  have hbreak : ((m.afterQuote c).afterBreak c).depth.natAbs ≤ m.depth.natAbs := by
    unfold State.afterBreak
    split
    · dsimp only
      split
      · rw [hquote]
      · exact Nat.zero_le _
    · rw [hquote]
  unfold State.next State.afterCode
  split
  · exact (Int.natAbs_add_le _ 1).trans (Nat.add_le_add_right hbreak 1)
  · split
    · exact (Int.natAbs_sub_le _ 1).trans (Nat.add_le_add_right hbreak 1)
    · split <;> exact hbreak.trans (Nat.le_succ _)

/-- The depth behind a text is at most as many brackets as the text has characters, so a text of fewer
than 2³¹ characters needs no more than 32 bits for it. -/
theorem natAbs_depth_after (m : State) (t : Text) : (after m t).depth.natAbs ≤ m.depth.natAbs + t.length := by
  induction m, t using mask_induction with
  | nil m => exact Nat.le_add_right _ _
  | dots m t hcode ih =>
    rw [after_dots hcode]
    exact ih.trans (Nat.add_le_add_left (Nat.le_add_right t.length 3) _)
  | cons m c t hc ih =>
    have hnext := natAbs_depth_next m c
    rw [after_cons hc, List.length_cons]
    omega

/-! ## Two texts one behind the other -/

theorem startsContinuation_append_left (h : startsContinuation t = true) (u : Text) :
    startsContinuation (t ++ u) = true := by
  obtain ⟨v, rfl⟩ := startsContinuation_iff.1 h
  rfl

theorem parted_nil (v : Text) : Parted [] v := fun _ hy hne => (hne (List.suffix_nil.1 hy)).elim

theorem Parted.of_append (h : Parted (t ++ u) v) : Parted u v := fun y hy => h y (hy.trans (List.suffix_append t u))

theorem Parted.append (h : Parted t (u ++ v)) (h' : Parted u v) : Parted (t ++ u) v := by
  intro y hy hne hdots
  obtain ⟨z, hz⟩ := hy
  rcases List.append_eq_append_iff.1 hz with ⟨x, rfl, rfl⟩ | ⟨x, rfl, rfl⟩
  · cases x with
    | nil => exact h' u (List.suffix_refl u) hne hdots
    | cons d x =>
      rw [List.append_assoc] at hdots
      exact startsContinuation_append_left (h _ ⟨z, rfl⟩ (List.cons_ne_nil d x) hdots) u
  · exact h' y ⟨x, rfl⟩ hne hdots

theorem Parted.left (h : Parted t (u ++ v)) : Parted t u := fun y hy hne hdots =>
  h y hy hne (List.append_assoc y u v ▸ startsContinuation_append_left hdots v)

/-- Dots that reach from one text into another end the one and begin the other. -/
theorem parted_of_ends (h : u.getLast? ≠ some '.' ∨ v.head? ≠ some '.') : Parted u v := by
  intro y hy hne hdots
  obtain ⟨w, hw⟩ := startsContinuation_iff.1 hdots
  have hcross : y.getLast? = some '.' → v.head? = some '.' → False := by
    intro hlast hhead
    obtain ⟨x, rfl⟩ := hy
    rw [List.getLast?_append, hlast, Option.some_or] at h
    rcases h with h | h
    · exact h rfl
    · exact h hhead
  match y with
  | [] => exact (hne rfl).elim
  | [a] =>
    obtain ⟨rfl, rfl⟩ := List.cons.inj hw
    exact (hcross rfl rfl).elim
  | [a, b] =>
    obtain ⟨-, hw⟩ := List.cons.inj hw
    obtain ⟨rfl, rfl⟩ := List.cons.inj hw
    exact (hcross rfl rfl).elim
  | a :: b :: d :: y =>
    simp only [List.cons_append, List.cons.injEq] at hw
    obtain ⟨rfl, rfl, rfl, -⟩ := hw
    rfl

theorem Parted.not_dots (h : Parted (c :: u) v)
    (hc : ¬ (m.code = true ∧ startsContinuation (c :: u) = true)) :
    ¬ (m.code = true ∧ startsContinuation (c :: (u ++ v)) = true) :=
  fun hdots => hc ⟨hdots.1, h _ (List.suffix_refl _) (List.cons_ne_nil c u) hdots.2⟩

theorem scan_append (h : Parted u v) : scan m (u ++ v) = scan m u ++ scan (after m u) v := by
  induction m, u using mask_induction with
  | nil => rfl
  | dots m t hcode ih =>
    have hrest := ih (h.of_append (t := ['.', '.', '.']))
    rw [after_dots hcode]
    simp only [List.cons_append, Mask.scan, if_pos hcode, hrest]
  | cons m c t hc ih =>
    rw [List.cons_append, scan_of_not_dots (h.not_dots hc), scan_of_not_dots hc, after_cons hc,
      ih (h.of_append (t := [c]))]
    rfl

theorem after_append (h : Parted u v) : after m (u ++ v) = after (after m u) v := by
  induction m, u using mask_induction with
  | nil => rfl
  | dots m t hcode ih =>
    rw [after_dots hcode, ← ih (h.of_append (t := ['.', '.', '.']))]
    exact after_dots hcode (t ++ v)
  | cons m c t hc ih =>
    rw [List.cons_append, after_cons (h.not_dots hc), after_cons hc, ih (h.of_append (t := [c]))]

theorem hide_append (h : Parted u v) : hide m (u ++ v) = hide m u ++ hide (after m u) v := by
  have hlen := (fits_scan m u).length_eq
  rw [hide, hide, hide, scan_append h, apply, List.zipWith_append hlen, List.flatten_append]
  rfl

theorem byteLength_hide (m : State) (t : Text) : Text.byteLength (hide m t) = Text.byteLength t := by
  induction m, t using mask_induction with
  | nil => rfl
  | dots m t hcode ih =>
    rw [hide_dots hcode]
    simp only [Text.byteLength, ih]
    rfl
  | cons m c t hc ih =>
    rw [hide_cons hc, Text.byteLength_append, byteLength_applyTo (fits_mark m c), ih, Text.byteLength]

/-! ## Where the state stays what it is -/

/-- The mask stays in its state where no character and no dots change it. -/
theorem after_of_fixed (h : ∀ c ∈ u, m.next c = m)
    (hdots : m.code = true → ∀ y, y <:+ u → y ≠ [] → startsContinuation y = false) : after m u = m := by
  induction u with
  | nil => rfl
  | cons c u ih =>
    have hno : ¬ (m.code = true ∧ startsContinuation (c :: u) = true) := fun ⟨hcode, hd⟩ => by
      rw [hdots hcode _ (List.suffix_refl _) (List.cons_ne_nil c u)] at hd
      cases hd
    rw [after_cons hno, h c List.mem_cons_self]
    exact ih (fun d hd => h d (List.mem_cons_of_mem c hd)) fun hcode y hy => hdots hcode y (hy.trans (List.suffix_cons c u))

theorem after_of_comment (h : m.comment = true) (hu : '\n' ∉ u) : after m u = m := by
  refine after_of_fixed (fun c hc => next_of_comment h ?_) fun hcode => ?_
  · rintro rfl
    exact hu hc
  · simp [State.code, h] at hcode

theorem after_quiet (h : Quiet u v) (m : State) : after m u = m := by
  refine after_of_fixed (fun c hc => next_of_not_mem (h.marks c hc) m) fun _ y hy hne => ?_
  refine Bool.eq_false_iff.2 fun hd => ?_
  have hno := h.dots y hy hne
  rw [startsContinuation_append_left hd] at hno
  cases hno

theorem Quiet.parted (h : Quiet u v) : Parted u v := by
  intro y hy hne hd
  rw [h.dots y hy hne] at hd
  cases hd

theorem plain_after_break (m : State) (u : Text) : Plain (after m (u ++ ['\n'])) := by
  rw [after_append (parted_of_ends (.inr (by decide))), after_cons (by simp [startsContinuation])]
  exact plain_next_break _

/-- Behind the rest of a string the string is closed, and nothing else has changed. -/
theorem Quoting.after {content spelling rest : Text} (h : Quoting c m) (hc : IsQuote c)
    (hb : stringBody c t = some (content, spelling, rest)) : Mask.after m spelling = { m with string := none } := by
  have hquote : ∀ {m : State} {t : Text}, ¬ (m.code = true ∧ startsContinuation (c :: t) = true) := by
    intro m t
    simp [not_dots_of_quote hc]
  fun_induction stringBody c t generalizing content spelling rest m with
  | case1 => cases hb
  | case2 =>
    cases hb
    rw [after_cons hquote, h.next_quote_eq hc]
    rfl
  | case3 => cases hb
  | case4 t ih =>
    obtain ⟨⟨a, b, r⟩, hr, he⟩ := Option.map_eq_some_iff.1 hb
    cases he
    have htwice : (m.next c).next c = m := by
      rw [(h.next_quote hc).next_quote_eq hc, h.next_quote_eq hc, ← h.string]
    rw [after_cons hquote, after_cons hquote, htwice, ih h hr]
  | case5 d t hne =>
    cases hb
    rw [after_cons hquote, h.next_quote_eq hc]
    rfl
  | case6 => cases hb
  | case7 d e t hne hbreak ih =>
    obtain ⟨⟨a, b, r⟩, hr, he⟩ := Option.map_eq_some_iff.1 hb
    cases he
    rw [after_cons (by simp [h.code]), h.next hne hbreak, ih h hr]

/-- Behind a string the mask is in the state in front of it. -/
theorem Plain.after_string {content spelling rest : Text} (h : Plain m) (hc : IsQuote c)
    (hb : stringBody c t = some (content, spelling, rest)) : Mask.after m (c :: spelling) = m := by
  rw [after_cons (by simp [not_dots_of_quote hc]), (h.next_quote hc).after hc hb, h.next_quote_eq hc]
  obtain ⟨comment, string, depth, continuation⟩ := m
  obtain ⟨rfl, rfl, rfl⟩ := h
  rfl

theorem Between.plain_next_stop (h : Between m (c :: t)) (hc : c ∈ stopSigns) : Plain (m.next c) := by
  by_cases hn : c = '\n'
  · subst hn
    exact plain_next_break m
  have hm := h.plain hn
  have hcases : c ∈ ['(', '[', '\x7b'] ∨ c ∈ [')', ']', '\x7d'] ∨ c = ';' := by
    simp only [stopSigns, List.mem_cons, List.not_mem_nil, or_false] at hc ⊢
    tauto
  rcases hcases with ho | hclose | rfl
  · rw [hm.next_opening ho]
    exact hm.with_depth _
  · rw [hm.next_closing hclose]
    exact hm.with_depth _
  · rwa [next_semicolon]

/-! ## Cutting masked text -/

/-- The masked text of one text goes over into the masked text of another at this character. -/
structure Shows (m : State) (u : Text) (d : Char) (v front : Text) (c : Char) (back : Text) : Prop where
  front : hide m u = front
  back : hide (after m u) (d :: v) = c :: back
  continuation : (after m u).continuation = false
  char : d = c ∨ d = ';' ∧ c = sentinel

/-- A character that is no blank is not part of what masks a character, or it is all of it. -/
theorem applyTo_append_eq {x : Char} (h : applyTo (m.mark x) x ++ t = front ++ c :: back) (hc : c ≠ ' ') :
    (∃ more, front = applyTo (m.mark x) x ++ more ∧ t = more ++ c :: back) ∨
      front = [] ∧ m.continuation = false ∧ (x = c ∨ x = ';' ∧ c = sentinel) := by
  rcases List.append_eq_append_iff.1 h with ⟨more, hfront, hrest⟩ | ⟨more, happ, hback⟩
  · exact .inl ⟨more, hfront, hrest⟩
  cases more with
  | nil => exact .inl ⟨[], by simpa using happ.symm, by simpa using hback.symm⟩
  | cons y more =>
    obtain ⟨rfl, -⟩ := List.cons.inj hback
    unfold applyTo at happ
    split at happ
    · have hmem : c ∈ List.replicate x.utf8Size ' ' := by simp [happ]
      exact (hc (List.eq_of_mem_replicate hmem)).elim
    next hblank =>
    have hcontinuation : m.continuation = false := Bool.eq_false_iff.2 hblank
    have hsingle : ∀ d : Char, [d] = front ++ c :: more → front = [] ∧ d = c := by
      intro d hd
      cases front with
      | nil => exact ⟨rfl, (List.cons.inj hd).1⟩
      | cons f front => simp at hd
    split at happ
    · next hprotect =>
      obtain ⟨hnil, rfl⟩ := hsingle _ happ
      exact .inr ⟨hnil, hcontinuation, .inr ⟨fits_mark m x hprotect, rfl⟩⟩
    · obtain ⟨hnil, rfl⟩ := hsingle _ happ
      exact .inr ⟨hnil, hcontinuation, .inl rfl⟩

/-- Masked text is cut at a character other than a blank as the script is. -/
theorem hide_eq_append_cons (h : hide m t = front ++ c :: back) (hc : c ≠ ' ') :
    ∃ u d v, t = u ++ d :: v ∧ Shows m u d v front c back := by
  induction m, t using mask_induction generalizing front with
  | nil => cases front <;> cases h
  | dots m t hcode ih =>
    rw [hide_dots hcode] at h
    obtain ⟨more, rfl, hmore⟩ : ∃ more, front = ' ' :: ' ' :: ' ' :: more ∧ hide m.continued t = more ++ c :: back := by
      match front with
      | [] => exact (hc (List.cons.inj h).1.symm).elim
      | [a] => simp [hc.symm] at h
      | [a, b] => simp [hc.symm] at h
      | a :: b :: d :: more => simpa [eq_comm, and_assoc] using h
    obtain ⟨u, d, v, rfl, hs⟩ := ih hmore
    refine ⟨'.' :: '.' :: '.' :: u, d, v, rfl, ?_, ?_, ?_, hs.char⟩
    · rw [hide_dots hcode, hs.front]
    · rw [after_dots hcode, hs.back]
    · rw [after_dots hcode, hs.continuation]
  | cons m x t hx ih =>
    rw [hide_cons hx] at h
    rcases applyTo_append_eq h hc with ⟨more, rfl, hmore⟩ | ⟨rfl, hcontinuation, hchar⟩
    · obtain ⟨u, d, v, rfl, hs⟩ := ih hmore
      have hx' : ¬ (m.code = true ∧ startsContinuation (x :: u) = true) := fun hdots =>
        hx ⟨hdots.1, startsContinuation_append_left hdots.2 (d :: v)⟩
      refine ⟨x :: u, d, v, rfl, ?_, ?_, ?_, hs.char⟩
      · rw [hide_cons hx', hs.front]
      · rw [after_cons hx', hs.back]
      · rw [after_cons hx', hs.continuation]
    · exact ⟨[], x, t, rfl, rfl, (hide_cons hx).trans h, hcontinuation, hchar⟩

/-- Names are shown as they are. -/
theorem hide_eq_cons (h : hide m t = c :: back) (hc : isNamePart c = true) :
    ∃ v, t = c :: v ∧ hide m v = back ∧ m.continuation = false := by
  have hne : c ≠ ' ' ∧ c ≠ sentinel ∧ c ≠ ';' := by
    refine ⟨?_, ?_, ?_⟩ <;> (rintro rfl; cases hc)
  have hsigns : c ∉ signs := not_mem_signs hc (by decide)
  rcases mask_cases m t with rfl | ⟨u, hcode, rfl⟩ | ⟨d, u, rfl, hd⟩
  · cases h
  · rw [hide_dots hcode] at h
    exact (hne.1 (List.cons.inj h).1.symm).elim
  · rw [hide_cons hd] at h
    have h : applyTo (m.mark d) d ++ hide (m.next d) u = [] ++ c :: back := h
    rcases applyTo_append_eq h hne.1 with ⟨more, hmore, -⟩ | ⟨-, hm, hchar⟩
    · have hlen := byteLength_applyTo (fits_mark m d)
      rw [(List.append_eq_nil_iff.1 hmore.symm).1] at hlen
      exact absurd d.utf8Size_pos (by rw [← hlen]; decide)
    · obtain rfl : d = c := hchar.resolve_right fun hs => hne.2.1 hs.2
      have hone : applyTo (m.mark d) d = [d] := by
        simp [applyTo, State.mark, hm, hne.2.2]
      rw [hone, next_of_not_mem hsigns] at h
      exact ⟨u, rfl, (List.cons.inj h).2, hm⟩

theorem hide_eq_append {word : Text} (h : hide m t = word ++ back) (hw : ∀ c ∈ word, isNamePart c = true) :
    ∃ rest, t = word ++ rest ∧ hide m rest = back := by
  induction word generalizing t with
  | nil => exact ⟨t, rfl, h⟩
  | cons c word ih =>
    obtain ⟨v, rfl, hv, -⟩ := hide_eq_cons h (hw c List.mem_cons_self)
    obtain ⟨rest, rfl, hrest⟩ := ih hv fun d hd => hw d (List.mem_cons_of_mem c hd)
    exact ⟨rest, rfl, hrest⟩

/-- Outside a continuation masked text begins as the text does, but for semicolons and dots. -/
theorem head_of_hide (h : hide m t = c :: back) (hm : m.continuation = false) (hc : c ≠ sentinel) :
    t.head? = some c ∨ t.head? = some '.' := by
  rcases mask_cases m t with rfl | ⟨u, hcode, rfl⟩ | ⟨d, u, rfl, hd⟩
  · cases h
  · exact .inr rfl
  · rw [hide_cons hd] at h
    have hblank : ¬ (m.mark d).blank = true := Bool.eq_false_iff.1 hm
    unfold applyTo at h
    rw [if_neg hblank] at h
    split at h
    · exact (hc (List.cons.inj h).1.symm).elim
    · exact .inl (congrArg some (List.cons.inj h).1)

/-- The last character of masked text outside a continuation is that of the text, but for line breaks and
semicolons. -/
theorem getLast?_of_hide (hu : u.getLast? = some c) (hm : (after m u).continuation = false) :
    c = '\n' ∨ c = ';' ∨ (hide m u).getLast? = some c := by
  induction m, u using mask_induction with
  | nil => cases hu
  | dots m t hcode ih =>
    rw [after_dots hcode] at hm
    rw [hide_dots hcode]
    cases t with
    | nil => cases hm
    | cons d t =>
      have hlast := ih (by simpa [List.getLast?_cons] using hu) hm
      exact hlast.imp_right (Or.imp_right fun hlast => by simp [List.getLast?_cons, hlast])
  | cons m d t hd ih =>
    rw [after_cons hd] at hm
    rw [hide_cons hd]
    cases t with
    | nil =>
      obtain rfl : d = c := by simpa using hu
      have hm : (m.next d).continuation = false := hm
      simp only [continuation_next, Bool.and_eq_false_iff, decide_eq_false_iff_not, Decidable.not_not] at hm
      rcases hm with hm | rfl
      · by_cases hsemi : d = ';'
        · exact .inr (.inl hsemi)
        · refine .inr (.inr ?_)
          simp [applyTo, State.mark, hm, hsemi, hide, apply, Mask.scan]
      · exact .inl rfl
    | cons e t =>
      have hlast := ih (by simpa [List.getLast?_cons] using hu) hm
      exact hlast.imp_right (Or.imp_right fun hlast => by simp [List.getLast?_append, hlast])

/-- In a comment no semicolon is shown. -/
theorem Commenting.break_of_hide (h : Commenting m) (hh : hide m t = front ++ ';' :: back) : '\n' ∈ front := by
  have hcode : m.code = false := by simp [State.code, h.comment]
  induction t generalizing front with
  | nil => cases front <;> cases hh
  | cons c t ih =>
    rw [hide_cons (by simp [hcode])] at hh
    by_cases hc : c = '\n'
    · subst hc
      have hone : applyTo (m.mark '\n') '\n' = ['\n'] := by simp [applyTo, State.mark, h.continuation]
      rw [hone] at hh
      cases front with
      | nil => simp at hh
      | cons d front =>
        obtain ⟨rfl, -⟩ := List.cons.inj hh
        exact List.mem_cons_self
    · rw [next_of_comment h.comment hc] at hh
      obtain ⟨d, hone, hd⟩ : ∃ d, applyTo (m.mark c) c = [d] ∧ d ≠ ';' := by
        by_cases hsemi : c = ';'
        · exact ⟨sentinel, by simp [applyTo, State.mark, h.continuation, h.comment, hsemi], by decide⟩
        · exact ⟨c, by simp [applyTo, State.mark, h.continuation, hsemi], hsemi⟩
      rw [hone] at hh
      cases front with
      | nil => exact (hd (List.cons.inj hh).1).elim
      | cons e front => exact List.mem_cons_of_mem e (ih (List.cons.inj hh).2)

end Edit

end ConfigScript
