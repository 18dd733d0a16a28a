import ConfigScript.Proofs.Genuine
import ConfigScript.Proofs.RoundTrip
/-!
# Printed values under the mask

A value is printed as words, quoted texts and brackets of these (`Value.printed_render`). From code on the
mask goes over such a text as over a value: it comes back to the state it was in, and shows no semicolon
where no bracket was open (`Printed.after`, `Printed.not_mem_hide`). Only the names of fields can hold a line
break, and a text with one of them has no tokens (`Printed.not_mem_of_tokenize`).
-/

namespace ConfigScript

namespace Edit

open Token

variable {w : Text} {c : Char} {inside : Bool}

/-! ## Printed texts -/

/-- A name, or a number with its sign. -/
structure Word (w : Text) : Prop where
  chars : ∀ c ∈ w, isNamePart c = true ∨ c = '-' ∨ c = '.'
  head : w.head? ≠ some '.'
  points : w.count '.' ≤ 1

/-- How values are printed. Only inside a bracket one is listed behind another. -/
inductive Printed : Bool → Text → Prop
  | word {inside : Bool} {w : Text} : Word w → Printed inside w
  | quote {inside : Bool} (t : Text) : Printed inside (Text.quote t)
  | bracket {inside : Bool} {w body : Text} (b : Bracket) : Word w → Printed true body →
      Printed inside (w ++ b.opening :: (body ++ [b.closing]))
  | listed {t u : Text} {c : Char} : c = ',' ∨ c = ';' → Printed true t → Printed true u →
      Printed true (t ++ c :: ' ' :: u)

theorem word_nil : Word [] := ⟨nofun, nofun, Nat.zero_le 1⟩

theorem word_of_nameParts (h : w.all isNamePart = true) : Word w where
  chars c hc := .inl (List.all_eq_true.1 h c hc)
  head := by
    intro hd
    have hdot := List.all_eq_true.1 h _ (List.mem_of_mem_head? hd)
    cases hdot
  points := by
    have hdot : '.' ∉ w := fun hm => absurd (List.all_eq_true.1 h _ hm) (by decide)
    rw [List.count_eq_zero.2 hdot]
    exact Nat.zero_le 1

theorem Word.minus (h : Word w) : Word ('-' :: w) where
  chars c hc := by
    rcases List.mem_cons.1 hc with rfl | hc
    · exact .inr (.inl rfl)
    · exact h.chars c hc
  head := by simp
  points := by simpa using h.points

theorem isNamePart_of_isDigit (h : c.isDigit = true) : isNamePart c = true := by
  simp [isNamePart, Char.isAlphanum, h]

theorem word_of_spelled {n : Number.Numeral} (h : Spelled n w) : Word w := by
  obtain ⟨hwhole, hfraction, hpower⟩ := h
  rename_i whole fraction pointed scaled exponent
  have hdot : ∀ {t : Text}, (∀ c ∈ t, isNamePart c = true ∨ c = '-') → t.count '.' = 0 := by
    intro t ht
    refine List.count_eq_zero.2 fun hm => ?_
    rcases ht _ hm with hp | hp <;> cases hp
  have hwhole' : ∀ c ∈ whole, isNamePart c = true ∨ c = '-' := fun c hc => .inl (isNamePart_of_isDigit (hwhole.all c hc))
  have hscaled : ∀ c ∈ scaled, isNamePart c = true ∨ c = '-' := by
    cases hpower with
    | none => exact nofun
    | up hd =>
      intro c hc
      rcases List.mem_cons.1 hc with rfl | hc
      · exact .inl rfl
      · exact .inl (isNamePart_of_isDigit (hd.all c hc))
    | down hd =>
      intro c hc
      simp only [List.mem_cons] at hc
      rcases hc with rfl | rfl | hc
      · exact .inl rfl
      · exact .inr rfl
      · exact .inl (isNamePart_of_isDigit (hd.all c hc))
  have hpointed : (∀ c ∈ pointed, isNamePart c = true ∨ c = '.') ∧ pointed.count '.' ≤ 1 := by
    cases hfraction with
    | none => exact ⟨nofun, Nat.zero_le 1⟩
    | digits hd =>
      refine ⟨fun c hc => ?_, ?_⟩
      · rcases List.mem_cons.1 hc with rfl | hc
        · exact .inr rfl
        · exact .inl (isNamePart_of_isDigit (hd.all c hc))
      · rw [List.count_cons_self, hdot fun c hc => .inl (isNamePart_of_isDigit (hd.all c hc))]
  refine ⟨fun c hc => ?_, ?_, ?_⟩
  · simp only [List.mem_append] at hc
    rcases hc with hc | hc | hc
    · exact (hwhole' c hc).imp_right .inl
    · exact (hpointed.1 c hc).imp_right .inr
    · exact (hscaled c hc).imp_right .inl
  · obtain ⟨c, u, hcut, hdigit⟩ := hwhole.head (pointed ++ scaled)
    rw [hcut]
    rintro ⟨⟩
    cases hdigit
  · rw [List.count_append, List.count_append, hdot hwhole', hdot hscaled, Nat.zero_add, Nat.add_zero]
    exact hpointed.2

theorem word_ofNat (n : Nat) : Word (Text.ofNat n) :=
  word_of_nameParts (List.all_eq_true.2 fun _ hc => isNamePart_of_isDigit (Text.isDigit_of_mem_ofNat hc))

end Edit

namespace Number

open Edit

theorem word_render (x : Float) : Word (render x) := by
  have hsize : Word (Layout.exact.sizeText x.abs) := word_of_spelled (Token.exists_spelled x.abs).choose_spec
  have h := rendering x
  generalize render x = t at h ⊢
  cases h with
  | nan => exact word_of_nameParts rfl
  | infinity => exact word_of_nameParts rfl
  | minusInfinity => exact (word_of_nameParts (w := "Inf".toList) rfl).minus
  | whole => exact word_ofNat _
  | minusWhole => exact (word_ofNat _).minus
  | size => exact hsize
  | minusSize => exact hsize.minus

end Number

namespace Text

/-- A part of a text with control characters is a quoted text or a spelled character. -/
theorem exists_of_mem_spelledParts {run t p : Text} (h : p ∈ spelledParts run t) : (∃ u, p = quote u) ∨ ∃ c, p = spellControl c := by
  have quoted : ∀ {run : Text}, p ∈ (if run.isEmpty then [] else [quote run.reverse]) → ∃ u, p = quote u := by
    intro run hp
    split at hp
    · cases hp
    · exact ⟨_, List.mem_singleton.1 hp⟩
  induction t generalizing run with
  | nil => exact .inl (quoted h)
  | cons c t ih =>
    rw [spelledParts] at h
    split at h
    · rcases List.mem_append.1 h with hp | hp
      · exact .inl (quoted hp)
      · rcases List.mem_cons.1 hp with rfl | hp
        · exact .inr ⟨c, rfl⟩
        · exact ih hp
    · exact ih h

end Text

namespace Edit

variable {inside : Bool}

theorem printed_join {c : Char} (hc : c = ',' ∨ c = ';') {ts : List Text} (h : ∀ t ∈ ts, Printed true t) :
    Printed true (Text.join [c, ' '] ts) := by
  induction ts with
  | nil => exact .word word_nil
  | cons t ts ih =>
    have ht := h t List.mem_cons_self
    cases ts with
    | nil => rwa [Text.join_single]
    | cons u ts =>
      rw [Text.join_cons_cons]
      exact .listed hc ht (ih fun v hv => h v (List.mem_cons_of_mem t hv))

theorem printed_spellControl (c : Char) : Printed inside (Text.spellControl c) := by
  have h : Printed inside ("char".toList ++ '(' :: (Text.ofNat c.toNat ++ [')'])) :=
    .bracket .round (word_of_nameParts rfl) (.word (word_ofNat c.toNat))
  simpa [Text.spellControl] using h

theorem printed_spelledParts (run t : Text) : ∀ p ∈ Text.spelledParts run t, Printed true p := by
  intro p hp
  rcases Text.exists_of_mem_spelledParts hp with ⟨u, rfl⟩ | ⟨c, rfl⟩
  · exact .quote u
  · exact printed_spellControl c

theorem printed_text (t : Text) : Printed inside (Text.render t) := by
  unfold Text.render
  split
  · exact .bracket .square word_nil (printed_join (.inl rfl) (printed_spelledParts [] t))
  · exact .quote t

theorem printed_matrix (x : Matrix) : Printed inside x.render := by
  unfold Matrix.render
  split
  · split
    · exact @Printed.bracket inside [] [] .square word_nil (.word word_nil)
    · have h : Printed inside ("zeros".toList ++ '(' :: (Text.ofNat x.rows ++ ',' :: ' ' :: Text.ofNat x.cols ++ [')'])) :=
        .bracket .round (word_of_nameParts rfl)
          (.listed (.inl rfl) (.word (word_ofNat x.rows)) (.word (word_ofNat x.cols)))
      simpa using h
  · refine .bracket .square word_nil (printed_join (.inr rfl) fun row hrow => ?_)
    obtain ⟨r, -, rfl⟩ := List.mem_map.1 hrow
    refine printed_join (.inl rfl) fun t ht => ?_
    obtain ⟨y, -, rfl⟩ := List.mem_map.1 ht
    exact .word (Number.word_render y)

end Edit

namespace Value

open Edit

mutual

/-- Values are printed so. -/
theorem printed_render : (v : Value) → (inside : Bool) → Printed inside v.render
  | logical b, inside => by
    cases b <;> exact .word (word_of_nameParts rfl)
  | double x, _ => .word (Number.word_render x)
  | text t, _ => printed_text t
  | matrix m, _ => printed_matrix m
  | cell items, _ => by
    show Printed _ ('\x7b' :: Text.join ", ".toList (renderItems items) ++ ['\x7d'])
    exact .bracket .curly word_nil (printed_join (.inl rfl) (printed_renderItems items))
  | struct fields, inside => by
    have h : Printed inside ("struct".toList ++ '(' :: (Text.join [',', ' '] (renderFields fields) ++ [')'])) :=
      .bracket .round (word_of_nameParts rfl) (printed_join (.inl rfl) (printed_renderFields fields))
    show Printed _ ("struct(".toList ++ Text.join ", ".toList (renderFields fields) ++ [')'])
    simpa using h

theorem printed_renderItems : (vs : List Value) → ∀ t ∈ renderItems vs, Printed true t
  | [], _, ht => by cases ht
  | v :: vs, t, ht => by
    rcases List.mem_cons.1 ht with rfl | ht
    · exact printed_render v true
    · exact printed_renderItems vs t ht

theorem printed_renderFields : (fields : List (Text × Value)) → ∀ t ∈ renderFields fields, Printed true t
  | [], _, ht => by cases ht
  | (name, v) :: fields, t, ht => by
    rcases List.mem_cons.1 ht with rfl | ht
    · rw [List.append_assoc]
      exact .listed (.inl rfl) (.quote name) (printed_render v true)
    · exact printed_renderFields fields t ht

end

end Value

namespace Edit

open Token Mask
open Occurrence (lastOr)

variable {m : State} {s s₁ : Scan} {t t₁ u w head tail script : Text} {c : Char} {before : Option Char}
  {inside : Bool} {floor : Int}

/-! ## The mask over a printed text -/

/-- A string may open behind one of these. The apostrophe is the one that a string goes on with. -/
def openers : Text := [' ', '(', '[', '\x7b', '\x27']

/-- A character of a printed text that stands outside of strings. -/
structure Outside (floor : Int) (m : State) (last : Option Char) (c : Char) (tail : Text) : Prop where
  ink : c ≠ '\n' ∧ c ≠ '%'
  dots : c = '.' → tail.head? ≠ some '.'
  semicolon : c = ';' → floor ≤ m.depth
  quote : c = '\x27' → ∀ d ∈ last, d ∈ openers

/-- Every character on the first line of a text is in a string or stands outside of strings as in a printed
text, with as many brackets open as `floor` says where it is a semicolon. -/
def Guarded (floor : Int) (m : State) (before : Option Char) (t : Text) : Prop :=
  ∀ head c tail, t = head ++ c :: tail → '\n' ∉ head →
    (after m head).string.isSome = true ∨ Outside floor (after m head) (lastOr before head) c tail

theorem Guarded.mono {floor' : Int} (h : Guarded floor m before t) (hle : floor' ≤ floor) :
    Guarded floor' m before t := fun head c tail ht hn =>
  (h head c tail ht hn).imp_right fun ho => ⟨ho.ink, ho.dots, fun hc => Int.le_trans hle (ho.semicolon hc), ho.quote⟩

theorem Guarded.append (ht : Guarded floor m before t)
    (hu : '\n' ∉ t → Guarded floor (after m t) (lastOr before t) u)
    (hends : t.getLast? ≠ some '.' ∨ u.head? ≠ some '.') : Guarded floor m before (t ++ u) := by
  intro head c tail happ hn
  rcases List.append_eq_append_iff.1 happ with ⟨x, rfl, rfl⟩ | ⟨x, rfl, hx⟩
  · -- the character is one of the second text
    have hnt : '\n' ∉ t := fun hm => hn (List.mem_append_left x hm)
    have hparted : Parted t x := (parted_of_ends hends).left
    rw [after_append hparted, Occurrence.lastOr, List.getLast?_append, Option.or_assoc]
    exact hu hnt x c tail rfl fun hm => hn (List.mem_append_right t hm)
  · cases x with
    | nil =>
      rw [List.append_nil] at hends hu
      have h := hu hn [] c tail (by simpa using hx.symm) List.not_mem_nil
      simpa [after, lastOr] using h
    | cons d x =>
      obtain ⟨rfl, rfl⟩ := List.cons.inj hx
      refine (ht head c x rfl hn).imp_right fun ho => ⟨ho.ink, fun hc => ?_, ho.semicolon, ho.quote⟩
      have hdots := ho.dots hc
      cases x with
      | cons => exact hdots
      | nil =>
        rcases hends with hends | hends
        · simp [hc] at hends
        · exact hends

theorem guarded_singleton (hc : c ≠ '\n' ∧ c ≠ '%' ∧ c ≠ '\x27') (hf : c = ';' → floor ≤ m.depth) :
    Guarded floor m before [c] := by
  intro head d tail h _
  cases head with
  | cons e head => simp at h
  | nil =>
    obtain ⟨rfl, rfl⟩ := List.cons.inj h
    exact .inr ⟨⟨hc.1, hc.2.1⟩, by simp, hf, fun hd => (hc.2.2 hd).elim⟩

theorem not_mem_signs_of_word (h : Word w) (hc : c ∈ w) : c ∉ signs := by
  rcases h.chars c hc with hp | rfl | rfl
  · exact not_mem_signs hp (by decide)
  · decide
  · decide

theorem Word.guarded (h : Word w) : Guarded floor m before w := by
  rintro head c tail rfl -
  have hsigns : c ∉ signs := not_mem_signs_of_word h (by simp)
  refine .inr ⟨⟨?_, ?_⟩, fun hc hdot => ?_, ?_, ?_⟩
  · rintro rfl
    exact hsigns (by decide)
  · rintro rfl
    exact hsigns (by decide)
  · obtain ⟨tail, rfl⟩ : ∃ u, tail = '.' :: u := by
      cases tail with
      | nil => cases hdot
      | cons d u => exact ⟨u, by simpa using hdot⟩
    have hpoints := h.points
    simp only [hc, List.count_append, List.count_cons_self] at hpoints
    omega
  · rintro rfl
    exact (hsigns (by decide)).elim
  · rintro rfl
    exact (hsigns (by decide)).elim

theorem Word.after (h : Word w) (m : State) : after m w = m := by
  have hdots : ∀ y, y <:+ w → y ≠ [] → startsContinuation (y ++ []) = false := by
    intro y hy _
    rw [List.append_nil]
    refine Bool.eq_false_iff.2 fun hd => ?_
    obtain ⟨u, rfl⟩ := startsContinuation_iff.1 hd
    have hpoints := h.points
    have hcount := hy.sublist.count_le '.'
    simp only [List.count_cons_self] at hcount
    omega
  exact after_quiet ⟨fun c hc => not_mem_signs_of_word h hc, hdots⟩ m

/-- In a quoted text a string is open, but between the two apostrophes that stand for one. -/
theorem Quoting.split (hq : Quoting '\x27' m) (h : doubled t ++ ['\x27'] = head ++ c :: tail) (hn : '\n' ∉ head) :
    (Mask.after m head).string = some '\x27' ∨ head.getLast? = some '\x27' ∧ c = '\x27' := by
  induction t generalizing head with
  | nil =>
    cases head with
    | nil => exact .inl hq.string
    | cons d head =>
      have hlen := congrArg List.length h
      simp [doubled] at hlen
  | cons a t ih =>
    by_cases ha : a = '\x27'
    · rw [ha, doubled_quote] at h
      rcases head with _ | ⟨d, _ | ⟨e, head⟩⟩
      · exact .inl hq.string
      · simp only [List.cons_append, List.nil_append, List.cons.injEq] at h
        exact .inr ⟨by simp [← h.1], h.2.1.symm⟩
      · simp only [List.cons_append, List.cons.injEq] at h
        obtain ⟨rfl, rfl, h⟩ := h
        have hquote : IsQuote '\x27' := .inl rfl
        have htwice : (m.next '\x27').next '\x27' = m := by
          rw [(hq.next_quote hquote).next_quote_eq hquote, hq.next_quote_eq hquote, ← hq.string]
        rw [after_cons (by simp [startsContinuation]), after_cons (by simp [startsContinuation]), htwice]
        refine (ih h fun hm => hn (by simp [hm])).imp_right (And.imp_left fun hlast => ?_)
        simp [List.getLast?_cons, hlast]
    · rw [doubled_cons ha] at h
      cases head with
      | nil => exact .inl hq.string
      | cons d head =>
        obtain ⟨rfl, hrest⟩ := List.cons.inj h
        have hbreak : a ≠ '\n' := fun hb => hn (hb ▸ List.mem_cons_self)
        rw [after_cons (by simp [hq.code]), hq.next ha hbreak]
        refine (ih hrest fun hm => hn (by simp [hm])).imp_right (And.imp_left fun hlast => ?_)
        simp [List.getLast?_cons, hlast]

theorem guarded_quote (hm : Plain m) (hb : ∀ d ∈ before, d ∈ openers) (t : Text) :
    Guarded floor m before (Text.quote t) := by
  have hquote : IsQuote '\x27' := .inl rfl
  intro head c tail h hn
  have h : '\x27' :: (doubled t ++ ['\x27']) = head ++ c :: tail := h
  cases head with
  | nil =>
    obtain ⟨rfl, -⟩ := List.cons.inj h
    exact .inr ⟨by decide, by simp, by simp, fun _ => hb⟩
  | cons d head =>
    obtain ⟨rfl, hrest⟩ := List.cons.inj h
    rw [after_cons (by simp [startsContinuation])]
    rcases (hm.next_quote hquote).split hrest fun hmem => hn (by simp [hmem]) with hopen | ⟨hlast, rfl⟩
    · exact .inl (by rw [hopen]; rfl)
    · refine .inr ⟨by decide, by simp, by simp, fun _ e he => ?_⟩
      obtain rfl : '\x27' = e := by simpa [lastOr, List.getLast?_cons, hlast] using he
      decide

theorem after_quote (hm : Plain m) (hn : '\n' ∉ t) : after m (Text.quote t) = m := by
  have hbody : stringBody '\x27' (doubled t ++ ['\x27']) = some (t, doubled t ++ ['\x27'], []) :=
    stringBody_doubled hn nofun
  exact hm.after_string (.inl rfl) hbody

theorem not_mem_of_quote (h : '\n' ∉ Text.quote t) : '\n' ∉ t := by
  intro hm
  refine h (List.mem_append_left _ (List.mem_cons_of_mem _ (List.mem_flatMap.2 ⟨_, hm, ?_⟩)))
  simp

theorem Plain.after_opening (hm : Plain m) (b : Bracket) :
    after m [b.opening] = { m with depth := m.depth + 1 } := by
  have hc : b.opening ∈ ['(', '[', '\x7b'] := by cases b <;> decide
  rw [after_cons (by cases b <;> simp [startsContinuation, Bracket.opening]), hm.next_opening hc]
  rfl

theorem Plain.after_closing (hm : Plain m) (b : Bracket) :
    after m [b.closing] = { m with depth := m.depth - 1 } := by
  have hc : b.closing ∈ [')', ']', '\x7d'] := by cases b <;> decide
  rw [after_cons (by cases b <;> simp [startsContinuation, Bracket.closing]), hm.next_closing hc]
  rfl

/-- From code on the mask comes back behind a printed text to the state in front of it, and what stands outside
of strings does so as it should. -/
theorem Printed.guarded (h : Printed inside t) (hm : Plain m) (hb : ∀ d ∈ before, d ∈ openers) :
    ('\n' ∉ t → after m t = m) ∧ Guarded (m.depth + if inside then 0 else 1) m before t := by
  induction h generalizing m before with
  | word hw => exact ⟨fun _ => hw.after m, hw.guarded⟩
  | quote t => exact ⟨fun hn => after_quote hm (not_mem_of_quote hn), guarded_quote hm hb t⟩
  | @bracket inside w body b hw _ ih =>
    have hopens : ∀ d ∈ some b.opening, d ∈ openers := by
      rintro d ⟨⟩
      cases b <;> decide
    have hopening : b.opening ≠ '.' ∧ (b.opening ≠ '\n' ∧ b.opening ≠ '%' ∧ b.opening ≠ '\x27') ∧ b.opening ≠ ';' := by
      cases b <;> decide
    have hclosing : b.closing ≠ '.' ∧ (b.closing ≠ '\n' ∧ b.closing ≠ '%' ∧ b.closing ≠ '\x27') ∧ b.closing ≠ ';' := by
      cases b <;> decide
    obtain ⟨hafter, hguarded⟩ := ih (hm.with_depth (m.depth + 1)) hopens
    have hcut : b.opening :: (body ++ [b.closing]) = [b.opening] ++ (body ++ [b.closing]) := rfl
    have hfirst : [b.opening].getLast? ≠ some '.' ∨ (body ++ [b.closing]).head? ≠ some '.' :=
      .inl (by simpa using hopening.1)
    have hlast : body.getLast? ≠ some '.' ∨ [b.closing].head? ≠ some '.' := .inr (by simpa using hclosing.1)
    have hword : w.getLast? ≠ some '.' ∨ (b.opening :: (body ++ [b.closing])).head? ≠ some '.' :=
      .inr (by simpa using hopening.1)
    refine ⟨fun hn => ?_, hw.guarded.append (fun _ => ?_) hword⟩
    · have hbody : '\n' ∉ body := fun hmem => hn (by simp [hmem])
      rw [after_append (parted_of_ends hword), hw.after, hcut, after_append (parted_of_ends hfirst),
        hm.after_opening, after_append (parted_of_ends hlast), hafter hbody, (hm.with_depth _).after_closing]
      simp
    · rw [hw.after, hcut]
      refine (guarded_singleton hopening.2.1 fun hsemi => (hopening.2.2 hsemi).elim).append (fun _ => ?_) hfirst
      rw [hm.after_opening]
      refine Guarded.append (hguarded.mono ?_) (fun _ => ?_) hlast
      · simp only [if_true]
        split <;> omega
      · exact guarded_singleton hclosing.2.1 fun hsemi => (hclosing.2.2 hsemi).elim
  | @listed t u c hc _ _ iht ihu =>
    have hcomma : c ≠ '.' ∧ (c ≠ '\n' ∧ c ≠ '%' ∧ c ≠ '\x27') ∧ c ∉ ['(', '[', '\x7b'] := by
      rcases hc with rfl | rfl <;> decide
    have hblank : ∀ d ∈ some ' ', d ∈ openers := by
      rintro d ⟨⟩
      decide
    obtain ⟨hafter, hguarded⟩ := iht hm hb
    obtain ⟨hafter', hguarded'⟩ := ihu hm hblank
    have hstay : after m [c] = m ∧ after m [' '] = m := by
      rcases hc with rfl | rfl
      · exact ⟨after_quiet (quiet_singleton (t := []) (by decide) rfl) m, after_blank rfl m⟩
      · exact ⟨(after_cons (by simp [startsContinuation])).trans (next_semicolon m), after_blank rfl m⟩
    have hcut : c :: ' ' :: u = [c] ++ ([' '] ++ u) := rfl
    have hfirst : t.getLast? ≠ some '.' ∨ (c :: ' ' :: u).head? ≠ some '.' := .inr (by simpa using hcomma.1)
    have hsecond : [c].getLast? ≠ some '.' ∨ ([' '] ++ u).head? ≠ some '.' := .inr (by simp)
    have hthird : [' '].getLast? ≠ some '.' ∨ u.head? ≠ some '.' := .inl (by simp)
    refine ⟨fun hn => ?_, hguarded.append (fun hn => ?_) hfirst⟩
    · have hparts : '\n' ∉ t ∧ '\n' ∉ u := ⟨fun hmem => hn (by simp [hmem]), fun hmem => hn (by simp [hmem])⟩
      rw [after_append (parted_of_ends hfirst), hafter hparts.1, hcut, after_append (parted_of_ends hsecond), hstay.1,
        after_append (parted_of_ends hthird), hstay.2, hafter' hparts.2]
    · rw [hafter hn, hcut]
      refine (guarded_singleton hcomma.2.1 fun _ => by simp).append (fun _ => ?_) hsecond
      rw [hstay.1]
      refine (guarded_singleton (by decide) fun hsemi => by cases hsemi).append (fun _ => ?_) hthird
      rw [hstay.2]
      exact hguarded'

theorem Printed.after (h : Printed inside t) (hm : Plain m) (hn : '\n' ∉ t) : Mask.after m t = m :=
  have hbefore : ∀ d ∈ (none : Option Char), d ∈ openers := by simp
  (h.guarded hm hbefore).1 hn

/-- Masked text has no characters but those of the text, blanks and sentinels. -/
theorem mem_hide (hc : c ∈ hide m t) : c ∈ t ∨ c = ' ' ∨ c = sentinel := by
  induction m, t using mask_induction with
  | nil => cases hc
  | dots m t hcode ih =>
    rw [hide_dots hcode] at hc
    simp only [List.mem_cons] at hc ⊢
    have ih := @ih
    tauto
  | cons m d t hd ih =>
    rw [hide_cons hd] at hc
    rcases List.mem_append.1 hc with hc | hc
    · unfold applyTo at hc
      split at hc
      · exact .inr (.inl (List.eq_of_mem_replicate hc))
      split at hc
      · exact .inr (.inr (List.mem_singleton.1 hc))
      · exact .inl (List.mem_singleton.1 hc ▸ List.mem_cons_self)
    · exact (ih hc).imp_left (List.mem_cons_of_mem d)

/-- Where as many brackets are open as are closed, the mask shows no semicolon of a printed value. -/
theorem Printed.not_mem_hide (h : Printed false t) (hm : Plain m) (hd : m.depth = 0) (hn : '\n' ∉ t) :
    ';' ∉ hide m t := by
  intro hmem
  obtain ⟨front, back, hcut⟩ := List.append_of_mem hmem
  obtain ⟨head, c, tail, rfl, hs⟩ := hide_eq_append_cons hcut (by decide)
  obtain rfl : c = ';' := hs.char.resolve_right fun hsent => absurd hsent.2 (by decide)
  have hbefore : ∀ d ∈ (none : Option Char), d ∈ openers := by simp
  have hprotect : ((Mask.after m head).mark ';').protect = true := by
    rcases (h.guarded hm hbefore).2 head ';' tail rfl fun hm => hn (List.mem_append_left _ hm) with hopen | ho
    · simp [State.mark, hopen]
    · have hdepth := ho.semicolon rfl
      simp only [hd, Bool.false_eq_true, if_false] at hdepth
      simp only [State.mark, decide_true, Bool.true_and, Bool.or_eq_true, decide_eq_true_eq]
      omega
  have hback := hs.back
  rw [hide_cons (by simp [startsContinuation]), applyTo, if_pos hprotect, if_neg (by simp [State.mark, hs.continuation])]
    at hback
  cases hback

/-! ## The ends of a printed value -/

theorem Word.ends (h : Word w) (hc : c ∈ w) : isBlank c = false ∧ c ≠ '=' ∧ c ≠ ';' := by
  rcases h.chars c hc with hp | rfl | rfl
  · refine ⟨not_isBlank_of_namePart hp, ?_, ?_⟩ <;> (rintro rfl; cases hp)
  · decide
  · decide

/-- A printed value begins and ends with ink, and is set off from an equals sign in front of it and from a
semicolon behind it. -/
theorem Printed.ends (h : Printed false t) : (∀ c ∈ t.head?, isBlank c = false ∧ c ≠ '=' ∧ c ≠ '.') ∧
    ∀ c ∈ t.getLast?, isBlank c = false ∧ c ≠ ';' := by
  cases h with
  | word hw =>
    refine ⟨fun c hc => ?_, fun c hc => ?_⟩
    · obtain ⟨hblank, heq, -⟩ := hw.ends (List.mem_of_mem_head? hc)
      exact ⟨hblank, heq, fun hdot => hw.head (hdot ▸ hc)⟩
    · obtain ⟨hblank, -, hsemi⟩ := hw.ends (List.mem_of_getLast? hc)
      exact ⟨hblank, hsemi⟩
  | quote t =>
    have hq : Text.quote t = '\x27' :: (doubled t ++ ['\x27']) := rfl
    rw [hq]
    refine ⟨?_, fun c hc => ?_⟩
    · rintro c ⟨⟩
      decide
    · obtain rfl : '\x27' = c := by simpa [List.getLast?_cons] using hc
      decide
  | @bracket _ w body b hw =>
    refine ⟨fun c hc => ?_, fun c hc => ?_⟩
    · cases w with
      | nil =>
        obtain rfl : b.opening = c := by simpa using hc
        cases b <;> decide
      | cons d w =>
        obtain rfl : d = c := by simpa using hc
        obtain ⟨hblank, heq, -⟩ := hw.ends (c := d) List.mem_cons_self
        exact ⟨hblank, heq, fun hdot => hw.head (hdot ▸ rfl)⟩
    · obtain rfl : b.closing = c := by simpa [List.getLast?_append, List.getLast?_cons] using hc
      cases b <;> decide

theorem trimEnd_of_ink (h : ∀ c ∈ t.getLast?, isBlank c = false) : t.trimEnd = t := by
  have hrev : t.reverse.head?.any isBlank = false := by
    rw [List.head?_reverse]
    cases hl : t.getLast? with
    | none => rfl
    | some c => exact h c hl
  rw [Text.trimEnd, (takeWhile_of_any hrev).2, List.reverse_reverse]

/-- A printed value is written as it is. -/
theorem Printed.normalize (h : Printed false t) : Edit.normalize t = t := by
  obtain ⟨hhead, hlast⟩ := h.ends
  have hstart : t.trimStart = t := by
    refine (takeWhile_of_any ?_).2
    cases hh : t.head? with
    | none => rfl
    | some c => exact (hhead c hh).1
  have hend : t.trimEnd = t := trimEnd_of_ink fun c hc => (hlast c hc).1
  have htrim : t.trim = t := by rw [Text.trim, hstart, hend]
  have hdrop : Text.dropTail? [';'] t = none := by
    refine if_neg fun hsuffix => ?_
    obtain ⟨u, rfl⟩ := List.isSuffixOf_iff_suffix.1 hsuffix
    exact (hlast ';' (by simp)).2 rfl
  rw [Edit.normalize, htrim, hdrop]
  exact hend

/-! ## Line breaks -/

/-- The scan has come to a place in a text, has read no transpose, and will read none. -/
structure Untransposed (script head : Text) (s : Scan) (t : Text) : Prop where
  reached : Reached script head s t
  tokens : ∀ x ∈ s.tokens, x.kind ≠ .transpose
  apostrophe : t.head? = some '\x27' → (s.afterOperand && !s.spaced) = false

theorem Untransposed.outside (h : Untransposed script head s (c :: t)) (hg : Guarded floor .start none script)
    (hn : '\n' ∉ head) : Outside floor (after .start head) (lastOr none head) c t := by
  have hb := (h.reached.inStep.resolve_left (List.cons_ne_nil c t)).resolve_left
    fun ⟨x, hx, hk, _⟩ => h.tokens x hx hk
  exact (hg head c t h.reached.text hn).resolve_left (by simp [hb.string])

theorem transpose_of_apostrophe {kind : TokenKind} (h : operator? c (some '\x27') = some (kind, true)) :
    kind = .transpose := by
  unfold operator? at h
  split at h <;> simp_all

/-- Here no lexeme is a transpose. -/
theorem Untransposed.lexeme (h : Untransposed script head s (c :: t)) (hg : Guarded floor .start none script)
    (hn : '\n' ∉ head) {l : Lexeme}
    (hl : Token.lexeme ((s.separated c t.head?).afterOperand && !s.spaced) c t = .ok l) : l.kind ≠ .transpose := by
  intro hk
  cases lexed_of_lexeme hl with
  | numeral => cases hk
  | name => cases hk
  | transpose hc htransposes =>
    have hflag := h.apostrophe (congrArg some hc)
    rcases s.separated_cases c t.head? with hsep | ⟨-, hsep⟩
    · rw [hsep, hflag] at htransposes
      cases htransposes
    · rw [hsep] at htransposes
      cases htransposes
  | string => cases hk
  | @pair d u kind _ htail hop =>
    -- the apostrophe of the pair would stand behind its point
    obtain rfl : kind = .transpose := hk
    obtain ⟨rfl, hd, -⟩ := operator_of_transpose hop
    obtain rfl : d = '\x27' := Option.some.inj hd
    subst htail
    have hparted : Parted head ['.'] := @Parted.left head ['.'] ('\x27' :: u) h.reached.parted
    have hb := (h.reached.inStep.resolve_left (by simp)).resolve_left fun ⟨x, hx, hk, _⟩ => h.tokens x hx hk
    have hpoint : after .start (head ++ ['.']) = after .start head := by
      rw [after_append hparted]
      exact after_quiet (quiet_singleton (t := ['\x27']) (by decide) rfl) _
    have htext : script = (head ++ ['.']) ++ '\x27' :: u := by rw [h.reached.text, List.append_assoc]; rfl
    have hout := (hg _ _ _ htext (by simpa using hn)).resolve_left (by simp [hpoint, hb.string])
    have hlast := hout.quote rfl '.' (by simp [lastOr])
    exact absurd hlast (by decide)
  | single _ hop =>
    obtain rfl := hk
    obtain ⟨-, -, htwo⟩ := operator_of_transpose hop
    cases htwo

theorem endsOperand_settledKind (s : Scan) (kind : TokenKind) : (s.settledKind kind).endsOperand = kind.endsOperand := by
  unfold Scan.settledKind
  split
  · next h =>
    simp only [Bool.and_eq_true] at h
    cases kind with
    | newline => rfl
    | _ => cases h.1
  · rfl

/-- A lexeme that ends like the front of a string and goes on with an apostrophe ends no operand. -/
theorem not_endsOperand_of_openers {transposes : Bool} {l : Lexeme} (h : Lexed transposes c t l)
    (hk : l.kind ≠ .transpose) {d : Char} (hlast : l.spelling.getLast? = some d) (hd : d ∈ openers)
    (hrest : l.rest.head? = some '\x27') : l.kind.endsOperand = false := by
  have hnot : ∀ {p : Char → Bool}, p d = true → openers.any p = false → False := by
    intro p hp hno
    have hany := List.any_eq_false.1 hno d hd
    exact hany hp
  cases h with
  | numeral =>
    rcases numeral_marks _ _ (List.mem_of_getLast? hlast) with hdigit | hmark
    · exact (hnot hdigit (by decide)).elim
    · exact (hnot (List.contains_iff_mem.2 hmark) (by decide)).elim
  | name => exact (hnot (List.mem_takeWhile_imp (List.mem_of_getLast? hlast)) (by decide)).elim
  | transpose => exact (hk rfl).elim
  | @string content spelling rest hc hb =>
    have hne : c ≠ '\n' := by
      rintro rfl
      rcases hc with hc | hc <;> cases hc
    obtain rfl : c = d := by simpa [List.getLast?_cons, (spelling_of_stringBody hne hb).1] using hlast
    rcases hc with rfl | rfl
    · exact (stringBody_rest hb hrest).elim
    · exact absurd hd (by decide)
  | @pair e u kind _ _ hop =>
    obtain rfl : e = d := by simpa using hlast
    have hsecond := second_of_operator hop
    have hquote : e = '\x27' := by
      simp only [List.mem_cons, List.not_mem_nil, or_false] at hsecond
      rcases hsecond with rfl | rfl | rfl | rfl | rfl | rfl | rfl <;> first | rfl | exact absurd hd (by decide)
    subst hquote
    exact (hk (transpose_of_apostrophe hop)).elim
  | single _ hop =>
    obtain rfl : c = d := by simpa using hlast
    simp only [openers, List.mem_cons, List.not_mem_nil, or_false] at hd
    rcases hd with rfl | rfl | rfl | rfl | rfl
    · cases hop
    · cases hop
      rfl
    · cases hop
      rfl
    · cases hop
      rfl
    · cases hop

theorem Untransposed.step (h : Untransposed script head s (u ++ t₁)) (hg : Guarded floor .start none script)
    (hs : Step s (u ++ t₁) s₁ t₁) (hn : '\n' ∉ head ++ u) (ht : t₁ ≠ []) : Untransposed script (head ++ u) s₁ t₁ := by
  obtain ⟨head₁, hreached⟩ := h.reached.run (.single hs)
  obtain rfl : head ++ u = head₁ := by
    have htext := hreached.text
    rw [h.reached.text, ← List.append_assoc] at htext
    exact List.append_cancel_right htext
  have hhead : '\n' ∉ head := fun hm => hn (List.mem_append_left u hm)
  generalize hcut : u ++ t₁ = t at hs
  have hstep := hs
  -- a transpose is no part of the step, and none follows if a string may open behind it
  have hparts : (∀ x ∈ s₁.tokens, x.kind ≠ .transpose) ∧
      ((∀ d ∈ u.getLast?, d ∈ openers) → t₁.head? = some '\x27' → (s₁.afterOperand && !s₁.spaced) = false) := by
    rw [hcut] at h
    cases hs with
    | blank => exact ⟨h.tokens, fun _ _ => by simp⟩
    | @continued c t hc =>
      obtain ⟨w, hw⟩ := startsContinuation_iff.1 hc
      obtain ⟨rfl, rfl⟩ := List.cons.inj hw
      exact ((h.outside hg hhead).dots rfl rfl).elim
    | comment => exact ((h.outside hg hhead).ink.2 rfl).elim
    | @token _ c t l hat hl htake =>
      obtain ⟨gs, -, rfl⟩ := Scan.take_eq_ok.1 htake
      have hk := h.lexeme hg hhead hl
      obtain rfl : u = l.spelling := List.append_cancel_right (hcut.trans (lexeme_append hl).1.symm)
      have hsettled : (s.separated c t.head?).settledKind l.kind ≠ .transpose := by
        unfold Scan.settledKind
        split
        · nofun
        · exact hk
      refine ⟨fun x hx => ?_, fun hlast hrest => ?_⟩
      · rcases List.mem_cons.1 hx with rfl | hx
        · exact hsettled
        · rcases s.separated_cases c t.head? with hsep | ⟨-, hsep⟩
          · exact h.tokens x (hsep ▸ hx)
          · rw [hsep] at hx
            rcases List.mem_cons.1 hx with rfl | hx
            · nofun
            · exact h.tokens x hx
      · obtain ⟨d, hd⟩ : ∃ d, l.spelling.getLast? = some d := by
          cases hl' : l.spelling.getLast? with
          | none => exact ((lexeme_append hl).2 (List.getLast?_eq_none_iff.1 hl')).elim
          | some d => exact ⟨d, rfl⟩
        have hends := not_endsOperand_of_openers (lexed_of_lexeme hl) hk hd (hlast d hd) hrest
        show (TokenKind.endsOperand _ && _) = false
        rw [endsOperand_settledKind, hends]
        rfl
  refine ⟨hreached, hparts.1, fun hrest => hparts.2 (fun d hd => ?_) hrest⟩
  obtain ⟨t₁, rfl⟩ : ∃ w, t₁ = '\x27' :: w := by
    cases t₁ with
    | nil => exact (ht rfl).elim
    | cons c w => exact ⟨w, by simpa using hrest⟩
  have hb := (hreached.inStep.resolve_left ht).resolve_left fun ⟨x, hx, hk, _⟩ => hparts.1 x hx hk
  have hout := (hg _ _ _ hreached.text hn).resolve_left (by simp [hb.string])
  refine hout.quote rfl d ?_
  rw [lastOr, List.getLast?_append, Option.mem_def.1 hd]
  rfl

theorem Untransposed.run {head₁ : Text} (h : Untransposed script head s t) (hg : Guarded floor .start none script)
    (hr : Run s t s₁ t₁) (htext : script = head₁ ++ t₁) (hn : '\n' ∉ head₁) (ht : t₁ ≠ []) :
    Untransposed script head₁ s₁ t₁ := by
  induction hr generalizing head with
  | nil =>
    obtain rfl : head = head₁ := List.append_cancel_right (h.reached.text.symm.trans htext)
    exact h
  | @cons s s₂ s₁ t t₂ t₁ hs hr ih =>
    obtain ⟨u, _, -, hu⟩ := hs.advance
    obtain ⟨v, _, hv⟩ := hr.advance
    obtain rfl := hu.text
    obtain rfl := hv.text
    have hcut : head₁ = (head ++ u) ++ v := by
      refine List.append_cancel_right (htext.symm.trans (h.reached.text.trans ?_))
      simp only [List.append_assoc]
    refine ih (h.step hg hs (fun hm => hn ?_) fun hnil => ht (List.append_eq_nil_iff.1 hnil).2) htext ht
    rw [hcut]
    exact List.mem_append_left v hm

/-- A printed value with a line break has no tokens. -/
theorem Printed.not_mem_of_tokenize (h : Printed inside t) {toks : List Token} (ht : tokenize t = .ok toks) :
    '\n' ∉ t := by
  intro hm
  obtain ⟨front, back, rfl, hfront⟩ := List.eq_append_cons_of_mem hm
  have hbefore : ∀ d ∈ (none : Option Char), d ∈ openers := by simp
  have hg := (h.guarded plain_start hbefore).2
  obtain ⟨last, hr, -, -⟩ := scan_eq_ok.1 ht
  obtain ⟨s, u, v, s₁, t₁, hr₀, hstep, -, ⟨head, rfl⟩, rfl⟩ := hr.turn rfl
  have hhead : '\n' ∉ head := fun hmem => hfront (List.mem_append_left u hmem)
  have hstart : Untransposed (head ++ u ++ '\n' :: (v ++ t₁)) [] .start (head ++ u ++ '\n' :: (v ++ t₁)) :=
    ⟨reached_start _, nofun, fun _ => rfl⟩
  have hhere := hstart.run hg hr₀ (by simp) hhead (by simp)
  generalize hcut : u ++ '\n' :: (v ++ t₁) = t at hstep hhere
  -- what the step begins with stands outside of strings, so it is no line break
  cases hstep with
  | @blank c t hc =>
    have hpiece : u ++ '\n' :: v = [c] := piece_eq hcut rfl
    obtain rfl : '\n' = c := List.mem_singleton.1 (hpiece ▸ by simp)
    cases hc
  | @continued c t hc =>
    obtain ⟨w, hw⟩ := startsContinuation_iff.1 hc
    obtain ⟨rfl, rfl⟩ := List.cons.inj hw
    exact (hhere.outside hg hhead).dots rfl rfl
  | comment => exact (hhere.outside hg hhead).ink.2 rfl
  | @token _ c t l hat hl htake =>
    have hpiece : u ++ '\n' :: v = l.spelling := piece_eq hcut (lexeme_append hl).1
    have happ := (lexeme_append hl).1
    rw [spelling_of_break (lexed_of_lexeme hl) (hpiece ▸ by simp)] at happ
    obtain ⟨rfl, -⟩ := List.cons.inj happ
    exact (hhere.outside hg hhead).ink.1 rfl

end Edit

end ConfigScript
