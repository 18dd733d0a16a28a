import ConfigScript.Proofs.Kept
import ConfigScript.Proofs.Relocated
import ConfigScript.Proofs.Rendered
/-!
# Seams

Where the value of an occurrence is cut out of its script, the mask may come to the semicolon behind it in another
state. If it does not matter (`Seamless`), masked text is cut where the script is (`exists_seam`), and a value that
the mask takes as a whole (`Enclosed`) can stand there without a change to what is masked in front of it and behind
it (`Seam.sanitize`). An edit with the same value finds its statement again and writes the same text (`Seam.splice`).
-/

namespace ConfigScript

namespace Edit

open Token Mask
open Occurrence (isGap)

variable {m : State} {name script value t u ending : Text} {o : Occurrence} {c : Char}

/-! ## What the mask does at the ends -/

/-- Where a continuation is open at the end, masked text ends in a blank. -/
theorem getLast?_of_continuation (h : (after m t).continuation = true) :
    m.continuation = true ∧ t = [] ∨ (hide m t).getLast? = some ' ' := by
  induction m, t using mask_induction with
  | nil m => exact .inl ⟨h, rfl⟩
  | dots m t hcode ih =>
    rw [after_dots hcode] at h
    rw [hide_dots hcode]
    rcases ih h with ⟨-, rfl⟩ | hlast
    · exact .inr rfl
    · exact .inr (by simp [List.getLast?_cons, hlast])
  | cons m d t hd ih =>
    rw [after_cons hd] at h
    rw [hide_cons hd]
    rcases ih h with ⟨hm, rfl⟩ | hlast
    · rw [continuation_next, Bool.and_eq_true] at hm
      have hblanks : applyTo (m.mark d) d = List.replicate d.utf8Size ' ' := by simp [applyTo, State.mark, hm.1]
      have hnil : hide (m.next d) [] = [] := rfl
      have hpos : d.utf8Size ≠ 0 := Nat.pos_iff_ne_zero.1 d.utf8Size_pos
      exact .inr (by simp [hblanks, hnil, List.getLast?_replicate, hpos])
    · exact .inr (by simp [List.getLast?_append, hlast])

/-- What a line break behind a text is masked as. -/
theorem hide_break (m : State) : hide m ['\n'] = [if m.continuation then ' ' else '\n'] := by
  have hone : ('\n' : Char).utf8Size = 1 := by decide
  rw [hide_cons (by simp [startsContinuation])]
  show _ ++ ([] : Text) = _
  cases hm : m.continuation <;> simp [applyTo, State.mark, hm, hone]

/-! ## Texts without signs and dots -/

/-- Nothing in a text changes the state of the mask. -/
def Unsigned (u : Text) : Prop := ∀ c ∈ u, c ∉ signs ∧ c ≠ '.'

theorem unsigned_of_identifier (hn : isIdentifier name = true) : Unsigned name := fun c hc => by
  have hpart := namePart_of_identifier hn c hc
  refine ⟨not_mem_signs hpart (by decide), ?_⟩
  rintro rfl
  cases hpart

theorem unsigned_of_gaps (hu : ∀ c ∈ u, isGap c = true) : Unsigned ('=' :: u) := fun c hc => by
  rcases List.mem_cons.1 hc with rfl | hc
  · decide
  · have hgap := hu c hc
    refine ⟨not_mem_signs hgap (by decide), ?_⟩
    rintro rfl
    cases hgap

theorem Unsigned.after_append (hu : Unsigned u) (m : State) (t : Text) : Mask.after m (u ++ t) = Mask.after m t := by
  induction u with
  | nil => rfl
  | cons c u ih =>
    obtain ⟨hsign, hdot⟩ := hu c List.mem_cons_self
    rw [List.cons_append, after_cons (by simp [startsContinuation_iff, hdot]), next_of_not_mem hsign,
      ih fun d hd => hu d (List.mem_cons_of_mem c hd)]

/-- Outside continuations such a text is shown as it is. -/
theorem Unsigned.hide_append (hu : Unsigned u) (h : m.continuation = false) (t : Text) :
    hide m (u ++ t) = u ++ hide m t := by
  induction u with
  | nil => rfl
  | cons c u ih =>
    obtain ⟨hsign, hdot⟩ := hu c List.mem_cons_self
    have hsemi : c ≠ ';' := by
      rintro rfl
      exact hsign (by decide)
    have hone : applyTo (m.mark c) c = [c] := by simp [applyTo, State.mark, h, hsemi]
    rw [List.cons_append, hide_cons (by simp [startsContinuation_iff, hdot]), next_of_not_mem hsign, hone,
      ih fun d hd => hu d (List.mem_cons_of_mem c hd)]
    rfl

theorem Unsigned.parted (hu : Unsigned u) (hne : u ≠ []) (front back : Text) :
    Parted front (u ++ back) ∧ Parted (front ++ u) back := by
  refine ⟨parted_of_ends (.inr ?_), parted_of_ends (.inl ?_)⟩
  · rw [List.head?_append_of_ne_nil _ hne]
    exact fun h => (hu '.' (List.mem_of_mem_head? h)).2 rfl
  · rw [List.getLast?_append_of_ne_nil _ hne]
    exact fun h => (hu '.' (List.mem_of_getLast? h)).2 rfl

/-- Where the mask shows a semicolon, and what it does with it and with the text behind it. -/
theorem hide_semicolon_iff {back : Text} :
    hide m (';' :: t) = ';' :: back ↔ (Plain m ∧ m.depth ≤ 0) ∧ hide m t = back := by
  rw [hide_cons (by simp [startsContinuation]), next_semicolon]
  obtain ⟨comment, string, depth, continuation⟩ := m
  have hplain : Plain ⟨comment, string, depth, continuation⟩ ↔
      comment = false ∧ string = none ∧ continuation = false :=
    ⟨fun h => ⟨h.comment, h.string, h.continuation⟩, fun h => ⟨h.1, h.2.1, h.2.2⟩⟩
  have hone : (';' : Char).utf8Size = 1 := by decide
  rw [hplain]
  cases continuation with
  | true => simp [applyTo, State.mark, hone]
  | false =>
    cases comment with
    | true => simp [applyTo, State.mark, sentinel]
    | false =>
      cases string with
      | some d => simp [applyTo, State.mark, sentinel]
      | none =>
        by_cases hd : 0 < depth
        · have hno : ¬ depth ≤ 0 := by omega
          simp [applyTo, State.mark, hd, hno, sentinel]
        · have hle : depth ≤ 0 := by omega
          simp [applyTo, State.mark, hd, hle]

/-! ## Cutting a script at a value -/

/-- The script in front of the value of an occurrence. -/
def Occurrence.before (o : Occurrence) (script : Text) : Text := script.takeBytes o.start ++ leftSide (o.text script)

/-- With the value of an occurrence left out the mask shows the semicolon, and what is behind it as before. -/
def Seamless (script : Text) (o : Occurrence) : Prop :=
  sanitize (o.before script ++ ';' :: script.dropBytes o.stop) =
    sanitize (o.before script) ++ ';' :: (sanitize script).dropBytes o.stop

instance (script : Text) (o : Occurrence) : Decidable (Seamless script o) := by
  unfold Seamless
  infer_instance

theorem splice_eq (script : Text) (o : Occurrence) (value : Text) :
    splice script o value = o.before script ++ (normalize value ++ ';' :: script.dropBytes o.stop) := by
  simp [splice, Occurrence.before]

/-- What stands in front of a value ends in the first equals sign of the occurrence and the blanks behind it. -/
theorem before_eq_append (hn : isIdentifier name = true) (ho : o ∈ Occurrence.find (sanitize script) name) :
    ∃ head gap blanks right, o.before script = head ++ (name ++ (gap ++ '=' :: blanks)) ∧ o.start = head.byteLength ∧
      '=' ∉ name ++ gap ∧ (∀ c ∈ blanks, isGap c = true) ∧
      script = o.before script ++ (right ++ script.dropBytes o.stop) := by
  obtain ⟨head, left, right, tail, hscript, hstart, hstop, ⟨⟨gap, blanks, hleft, hsign, hblanks⟩, -⟩, hsplice⟩ :=
    splice_eq_append hn ho
  have htail : script.dropBytes o.stop = tail := by
    have hcut : script = head ++ (left ++ right) ++ tail := by simpa using hscript
    rw [hstop, hcut, Text.dropBytes_byteLength]
  have hbefore : o.before script = head ++ left := by
    have hempty := (splice_eq script o []).symm.trans (hsplice [])
    rw [htail, ← List.append_assoc head] at hempty
    exact List.append_cancel_right hempty
  refine ⟨head, gap, blanks, right, hbefore.trans (by rw [hleft]), hstart, hsign, hblanks, ?_⟩
  rw [htail, hbefore, hscript, List.append_assoc]

/-- Masked text with an occurrence, cut at its ends. -/
theorem sanitize_eq_append (hn : isIdentifier name = true) (ho : o ∈ Occurrence.find (sanitize script) name) :
    ∃ front gap body, Parts gap body ∧ o.start = front.byteLength ∧
      sanitize script = front ++ (statement name gap body ++ (sanitize script).dropBytes o.stop) := by
  obtain ⟨front, _, back, hmasked, -, @⟨gap, body, hgap, hbody⟩, hstart, hstop⟩ := find_assigns hn ho
  have hmasked : sanitize script = front ++ statement name gap body ++ back := by
    simpa [statement] using hmasked
  have hstop : o.stop = (front ++ statement name gap body).byteLength := hstop
  refine ⟨front, gap, body, ⟨hgap, hbody⟩, hstart, ?_⟩
  rw [hstop, hmasked, Text.dropBytes_byteLength, List.append_assoc]

/-- No dots reach from what ends in the equals sign and blanks into the value. -/
theorem parted_before {head word blanks : Text} (ht : t = head ++ (word ++ '=' :: blanks))
    (hb : ∀ c ∈ blanks, isGap c = true) (back : Text) : Parted t back := by
  have h := ((unsigned_of_gaps hb).parted (List.cons_ne_nil _ _) (head ++ word) back).2
  rw [ht]
  simpa using h

/-- A script cut at the value of an occurrence, and its masked text cut there too. -/
structure Seam (name script : Text) (o : Occurrence) (front gap blanks body : Text) : Prop where
  plain : Plain (after .start (o.before script))
  depth : (after .start (o.before script)).depth ≤ 0
  start : o.start = front.byteLength
  parts : Parts gap body
  gaps : ∀ c ∈ blanks, isGap c = true
  before : ∃ head word, o.before script = head ++ (word ++ '=' :: blanks) ∧ o.start = head.byteLength ∧ '=' ∉ word
  cut : ∃ right, script = o.before script ++ (right ++ script.dropBytes o.stop)
  shown : hide .start (o.before script) = front ++ (name ++ (gap ++ '=' :: blanks))
  masked : sanitize script =
    front ++ (statement name gap body ++ hide (after .start (o.before script)) (script.dropBytes o.stop))

theorem exists_seam (hn : isIdentifier name = true) (ho : o ∈ Occurrence.find (sanitize script) name)
    (hs : Seamless script o) : ∃ front gap blanks body, Seam name script o front gap blanks body := by
  obtain ⟨head, gap', blanks, right, hbefore, hstart, hsign, hblanks, hscript⟩ := before_eq_append hn ho
  obtain ⟨front, gap, body, hparts, hfront, hmasked⟩ := sanitize_eq_append hn ho
  have hne := (shown_of_identifier hn).1
  have hname := unsigned_of_identifier hn
  have hequals := unsigned_of_gaps hblanks
  have hparted := fun t => @parted_before (o.before script) head (name ++ gap') blanks (by simp [hbefore]) hblanks t
  -- a semicolon is shown where the value begins, so the mask is in code there
  rw [Seamless, sanitize_eq_hide (o.before script ++ _), hide_append (hparted _)] at hs
  obtain ⟨⟨hplain, hdepth⟩, htail⟩ := hide_semicolon_iff.1 (List.append_cancel_left hs)
  generalize hm : after .start (o.before script) = m at hplain hdepth htail
  generalize hrest : right ++ script.dropBytes o.stop = rest at hscript
  -- the mask is in one state in front of the name and behind it, and in one from the equals sign on
  have hhead : ∀ t, Parted head (name ++ t) := fun t => (hname.parted hne head t).1
  have hgap : ∀ t, Parted gap' ('=' :: t) := fun t => parted_of_ends (.inr (by simp))
  have hstate : after (after .start head) gap' = m := by
    have hend := hequals.after_append (after (after .start head) gap') []
    rw [List.append_nil] at hend
    rw [← hm, hbefore, after_append (hhead _), hname.after_append, after_append (hgap _), hend]
    rfl
  have hshown : ∀ t, hide (after .start head) (gap' ++ '=' :: (blanks ++ t)) =
      hide (after .start head) gap' ++ '=' :: (blanks ++ hide m t) := fun t => by
    rw [hide_append (hgap _), hstate]
    exact congrArg _ (hequals.hide_append hplain.continuation t)
  -- up to the equals sign masked text is cut where the script is
  obtain ⟨hfrontEq, hcut⟩ : hide .start head = front ∧
      hide (after .start head) (name ++ (gap' ++ '=' :: (blanks ++ rest))) =
        name ++ (gap ++ '=' :: (body ++ ';' :: (sanitize script).dropBytes o.stop)) := by
    refine Text.append_inj ?_ (by rw [byteLength_hide, ← hstart, hfront])
    rw [← hide_append (hhead _), ← statement_append, ← hmasked, sanitize_eq_hide]
    conv_rhs => rw [hscript, hbefore]
    simp
  obtain ⟨back, hback, hbehind⟩ := hide_eq_append hcut (namePart_of_identifier hn)
  rw [← List.append_cancel_left hback, hshown] at hbehind
  -- the first equals sign of the script is the first one that is shown
  have hfirst : '=' ∉ hide (after .start head) gap' := fun hmem => by
    rcases mem_hide hmem with hmem | hmem | hmem
    · exact hsign (List.mem_append_right name hmem)
    · cases hmem
    · cases hmem
  obtain ⟨-, hbody⟩ := append_cons_inj hfirst hparts.ne_sign hbehind
  have hall : hide .start (o.before script) ++ hide m rest = front ++ (name ++ (gap ++ '=' :: blanks)) ++ hide m rest := by
    rw [← hm, ← hide_append (hparted _), ← hscript, ← sanitize_eq_hide, hmasked, statement_append, ← hbody, hm]
    simp
  refine ⟨front, gap, blanks, body, ?_⟩
  exact {
    plain := hm ▸ hplain
    depth := hm ▸ hdepth
    start := hfront
    parts := hparts
    gaps := hblanks
    before := ⟨head, name ++ gap', by rw [hbefore, List.append_assoc], hstart, hsign⟩
    cut := ⟨right, by rw [hrest, ← hscript]⟩
    shown := List.append_cancel_right hall
    masked := by rw [hm, htail, ← hmasked] }

/-! ## Another value at the seam -/

/-- The mask takes the value as a whole: it comes out of it as it came in and shows no semicolon of it. -/
structure Enclosed (m : State) (value : Text) : Prop where
  after : Mask.after m value = m
  hides : ';' ∉ hide m value
  line : '\n' ∉ value
  head : ∀ c ∈ value.head?, isGap c = false ∧ c ≠ '=' ∧ c ≠ '.'

theorem Printed.enclosed (h : Printed false value) (hm : Plain m) (hn : '\n' ∉ value) (hh : ';' ∉ hide m value) :
    Enclosed m value where
  after := h.after hm hn
  hides := hh
  line := hn
  head c hc := by
    obtain ⟨hblank, hrest⟩ := h.ends.1 c hc
    refine ⟨Bool.eq_false_iff.2 fun hgap => ?_, hrest⟩
    rcases Occurrence.isGap_iff.1 hgap with rfl | rfl <;> cases hblank

variable {front gap blanks body tail : Text}

theorem Seam.parts_enclosed (h : Seam name script o front gap blanks body)
    (hv : Enclosed (after .start (o.before script)) value) :
    Parts gap (blanks ++ hide (after .start (o.before script)) value) := by
  refine ⟨h.parts.gap, fun c hc => ?_⟩
  rcases List.mem_append.1 hc with hc | hc
  · have hgap := h.gaps c hc
    constructor <;> (rintro rfl; cases hgap)
  · refine ⟨fun heq => hv.hides (heq ▸ hc), ?_⟩
    rintro rfl
    rcases mem_hide hc with hc | hc | hc
    · exact hv.line hc
    · cases hc
    · cases hc

theorem Seam.head_enclosed (h : Seam name script o front gap blanks body)
    (hv : Enclosed (after .start (o.before script)) value) :
    (blanks ++ hide (after .start (o.before script)) value).head? ≠ some '=' := by
  cases hb : blanks with
  | cons c blanks =>
    have hgap := h.gaps c (hb ▸ List.mem_cons_self)
    rintro ⟨⟩
    cases hgap
  | nil =>
    rw [List.nil_append]
    intro hhead
    obtain ⟨back, hback⟩ := List.head?_eq_some_iff.1 hhead
    rcases head_of_hide hback h.plain.continuation (by decide) with hc | hc
    · exact (hv.head _ hc).2.1 rfl
    · exact (hv.head _ hc).2.2 rfl

/-- With another value masked text is the same in front of it and behind it. -/
theorem Seam.sanitize (h : Seam name script o front gap blanks body)
    (hv : Enclosed (after .start (o.before script)) value) (hp : Parted (script.dropBytes o.stop) ending) :
    Edit.sanitize (o.before script ++ (value ++ ';' :: (script.dropBytes o.stop ++ ending))) =
      front ++ (statement name gap (blanks ++ hide (after .start (o.before script)) value) ++
        (hide (after .start (o.before script)) (script.dropBytes o.stop) ++
          hide (after (after .start (o.before script)) (script.dropBytes o.stop)) ending)) := by
  obtain ⟨head, word, hbefore, -, -⟩ := h.before
  have hsemi := (hide_semicolon_iff (t := script.dropBytes o.stop ++ ending)).2 ⟨⟨h.plain, h.depth⟩, rfl⟩
  -- the mask comes to the semicolon in the state in which it comes to the value
  rw [sanitize_eq_hide, hide_append (parted_before hbefore h.gaps _), h.shown,
    hide_append (parted_of_ends (.inr (by simp))), hv.after, hsemi, hide_append hp, statement_append]
  simp

/-- The statement with the other value is cut as before, so another edit of it replaces no more than the value. -/
theorem Seam.splice (h : Seam name script o front gap blanks body)
    (hv : Enclosed (after .start (o.before script)) value) (tail another : Text) :
    Edit.splice (o.before script ++ (value ++ ';' :: tail)) ⟨o.start,
      o.start + (statement name gap (blanks ++ hide (after .start (o.before script)) value)).byteLength, o.id⟩ another =
        o.before script ++ (normalize another ++ ';' :: tail) := by
  obtain ⟨head, word, hbefore, hstart, hsign⟩ := h.before
  have hlen : (statement name gap (blanks ++ hide (after .start (o.before script)) value)).byteLength =
      (word ++ '=' :: (blanks ++ (value ++ [';']))).byteLength := by
    have hleft := byteLength_hide .start (o.before script)
    rw [h.shown, hbefore] at hleft
    simp only [Text.byteLength_append, Text.byteLength, ← h.start, ← hstart] at hleft
    simp only [statement, Text.byteLength_append, Text.byteLength, byteLength_hide]
    omega
  have hgaps : (blanks ++ (value ++ [';'])).takeWhile isGap = blanks := by
    rw [List.takeWhile_append_of_pos h.gaps]
    cases hvalue : value with
    | nil => simp [isGap]
    | cons c value => simp [(hv.head c (by simp [hvalue])).1]
  have hcut : o.before script ++ (value ++ ';' :: tail) =
      head ++ ((word ++ '=' :: (blanks ++ (value ++ [';']))) ++ tail) := by
    rw [hbefore]
    simp
  have hdrop := Text.dropBytes_byteLength (head ++ (word ++ '=' :: (blanks ++ (value ++ [';'])))) tail
  rw [List.append_assoc, Text.byteLength_append] at hdrop
  rw [splice_eq, hcut, hlen, Occurrence.before, Occurrence.text, hstart, Text.takeBytes_byteLength, Text.slice_byteLength,
    leftSide_append hsign, hgaps, hdrop, hbefore]

end Edit

end ConfigScript
