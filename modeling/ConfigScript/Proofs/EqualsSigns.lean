import ConfigScript.Proofs.Seams
/-!
# The equals sign of an occurrence

The search reads the equals sign of a statement in masked text (`Occurrence.signAt`), and a replacement cuts behind
the first one in the script itself (`Occurrence.cutAt`). Between the name and the sign are blanks and continuations.
The two are one sign unless such a continuation has an equals sign in it. Then the replacement cuts inside the
continuation, and the value that it puts there is no value at all (`splice_sign`).
-/

namespace ConfigScript

namespace Edit

open Mask
open Occurrence (isGap)
open Token (startsContinuation)

variable {m : State} {mark : Mark} {marks marks' : List Mark} {p : Mark → Bool} {t u script name : Text} {c : Char}
  {n offset : Nat} {o : Occurrence}

/-! ## Bytes of continuations -/

/-- The byte belongs to a continuation. -/
def Continued (script : Text) (n : Nat) : Prop := n ∈ offsets (·.blank) 0 (ofScript script) script

instance : Decidable (Continued script n) := inferInstanceAs (Decidable (_ ∈ _))

theorem le_of_mem_offsets (h : n ∈ offsets p offset marks t) : offset ≤ n := by
  induction marks generalizing offset t with
  | nil => cases h
  | cons mark marks ih =>
    cases t with
    | nil => cases h
    | cons c t =>
      rcases List.mem_append.1 h with h | h
      · split at h
        · exact (List.mem_range'_1.1 h).1
        · cases h
      · exact Nat.le_trans (Nat.le_add_right _ _) (ih h)

/-- Whether the byte at which a character begins is marked is told by the mark of the character. -/
theorem mem_offsets_append (hl : marks.length = u.length) :
    offset + u.byteLength ∈ offsets p offset (marks ++ mark :: marks') (u ++ c :: t) ↔ p mark = true := by
  induction marks generalizing offset u with
  | nil =>
    obtain rfl := List.length_eq_zero_iff.1 hl.symm
    have hpos := c.utf8Size_pos
    have hrest : offset ∉ offsets p (offset + c.utf8Size) marks' t := fun h => by
      have hle := le_of_mem_offsets h
      omega
    show offset ∈ (if p mark then List.range' offset c.utf8Size else []) ++ offsets p (offset + c.utf8Size) marks' t ↔ _
    rw [List.mem_append, or_iff_left hrest]
    split
    · next hp => simp [List.mem_range'_1, hp, hpos]
    · next hp => simp [hp]
  | cons first marks ih =>
    cases u with
    | nil => cases hl
    | cons d u =>
      have ih := @ih u (offset + d.utf8Size) (Nat.succ.inj hl)
      have hfirst : offset + (d.utf8Size + Text.byteLength u) ∉
          if p first then List.range' offset d.utf8Size else [] := fun h => by
        split at h
        · have hlt := (List.mem_range'_1.1 h).2
          omega
        · cases h
      show offset + (d.utf8Size + Text.byteLength u) ∈ (if p first then List.range' offset d.utf8Size else []) ++
        offsets p (offset + d.utf8Size) (marks ++ mark :: marks') (u ++ c :: t) ↔ _
      rw [List.mem_append, or_iff_right hfirst, ← Nat.add_assoc, ih]

theorem continued_iff (hmarks : ofScript script = marks ++ mark :: marks') (hscript : script = u ++ c :: t)
    (hl : marks.length = u.length) : Continued script u.byteLength ↔ mark.blank = true := by
  have h := @mem_offsets_append mark marks marks' (·.blank) t u c 0 hl
  rw [Nat.zero_add] at h
  rw [Continued, hmarks]
  conv_lhs => rw [hscript]
  exact h

/-- The mask marks a text that changes nothing by its state. -/
theorem Unsigned.scan_append (hu : Unsigned u) (m : State) (t : Text) : scan m (u ++ t) = u.map m.mark ++ scan m t := by
  induction u with
  | nil => rfl
  | cons c u ih =>
    obtain ⟨hsign, hdot⟩ := hu c List.mem_cons_self
    rw [List.cons_append, scan_of_not_dots (by simp [startsContinuation_iff, hdot]), next_of_not_mem hsign,
      ih fun d hd => hu d (List.mem_cons_of_mem c hd)]
    rfl

theorem exists_mark (h : List.Forall₂ Mark.Fits marks (u ++ c :: t)) : ∃ front mark back, marks = front ++ mark :: back ∧
    front.length = u.length ∧ mark.Fits c ∧ ∀ d ∈ applyTo mark c, d ∈ apply marks (u ++ c :: t) := by
  induction u generalizing marks with
  | nil =>
    cases h with
    | cons hmark _ => exact ⟨[], _, _, rfl, rfl, hmark, fun d hd => List.mem_append_left _ hd⟩
  | cons e u ih =>
    cases h with
    | @cons first _ marks _ _ h =>
      obtain ⟨front, mark, back, rfl, hl, hmark, hshown⟩ := ih h
      exact ⟨first :: front, mark, back, rfl, congrArg (· + 1) hl, hmark,
        fun d hd => List.mem_append_right _ (hshown d hd)⟩

/-- So all of it belongs to a continuation or none of it does. -/
theorem Unsigned.continued_iff {head front back : Text} (hu : Unsigned u) (hp : Parted head (u ++ t))
    (hscript : script = head ++ (u ++ t)) (hcut : u = front ++ c :: back) :
    Continued script (head ++ front).byteLength ↔ (after .start head).continuation = true := by
  have hmarks : ofScript script = (scan .start head ++ front.map (after .start head).mark) ++
      (after .start head).mark c :: (back.map (after .start head).mark ++ scan (after .start head) t) := by
    rw [ofScript, hscript, Edit.scan_append hp, hu.scan_append, hcut]
    simp
  have hchar : script = (head ++ front) ++ c :: (back ++ t) := by
    rw [hscript, hcut]
    simp
  refine Edit.continued_iff hmarks hchar ?_
  rw [List.length_append, List.length_append, List.length_map, (fits_scan .start head).length_eq]

/-! ## The two signs -/

/-- Where the search has read the equals sign: behind the name and the blanks there in masked text. -/
def Occurrence.signAt (o : Occurrence) (masked name : Text) : Nat :=
  o.start + name.byteLength + Text.byteLength ((masked.dropBytes (o.start + name.byteLength)).takeWhile isGap)

/-- Where a replacement cuts: behind the first equals sign in the text of the occurrence. -/
def Occurrence.cutAt (o : Occurrence) (script : Text) : Nat :=
  o.start + Text.byteLength ((o.text script).takeWhile (· ≠ '='))

/-- The script cut as the search has read the statement. Between the name and the equals sign masked text has blanks
only, and the sign is in no continuation. -/
structure Read (name script : Text) (o : Occurrence) (head gap value tail : Text) : Prop where
  cut : script = (head ++ name) ++ (gap ++ '=' :: (value ++ ';' :: tail))
  start : o.start = head.byteLength
  stop : o.stop = (head ++ name ++ (gap ++ '=' :: (value ++ [';']))).byteLength
  signAt : o.signAt (sanitize script) name = (head ++ name ++ gap).byteLength
  gaps : ∀ c ∈ hide (after .start (head ++ name)) gap, isGap c = true
  code : (after .start (head ++ name ++ gap)).continuation = false

theorem exists_read (hn : isIdentifier name = true) (ho : o ∈ Occurrence.find (sanitize script) name) :
    ∃ head gap value tail, Read name script o head gap value tail := by
  obtain ⟨hne, hshown⟩ := shown_of_identifier hn
  obtain ⟨front, _, back, hmasked, -, @⟨mgap, body, hmgap, hbody⟩, hstart, hstop⟩ := find_assigns hn ho
  have hparts : Parts mgap body := ⟨hmgap, hbody⟩
  -- the equals sign is shown, and so are the name in front of it and the semicolon behind it
  have hsign : hide .start script = (front ++ (name ++ mgap)) ++ '=' :: (body ++ ';' :: back) := by
    rw [← sanitize_eq_hide, hmasked]
    simp
  obtain ⟨u, d, rest, rfl, hs⟩ := hide_eq_append_cons hsign (by decide)
  obtain rfl : d = '=' := hs.char.resolve_right fun h => absurd h.2 (by decide)
  obtain ⟨head, gap, _, rfl, hhead, -, -⟩ :=
    apply_eq_append (fits_scan .start u) hs.front hne fun c hc => (hshown c hc).2
  have hrest := (unsigned_of_gaps (u := []) nofun).hide_append hs.continuation rest
  rw [List.singleton_append, hs.back] at hrest
  obtain ⟨value, d, tail, rfl, hs'⟩ := hide_eq_append_cons (List.cons.inj hrest).2.symm (by decide)
  obtain rfl : d = ';' := hs'.char.elim id And.left
  have hname : ∀ t, Parted (head ++ name) t := fun t => ((unsigned_of_identifier hn).parted hne head t).2
  have hgap : hide (after .start (head ++ name)) gap = mgap := by
    have hfront := hs.front
    rw [← List.append_assoc, ← List.append_assoc, hide_append (hname gap)] at hfront
    exact (Text.append_inj hfront (by rw [byteLength_hide, Text.byteLength_append, Text.byteLength_append, hhead])).2
  have hlengths : head.byteLength = front.byteLength ∧ gap.byteLength = mgap.byteLength ∧
      value.byteLength = body.byteLength := by
    rw [← hgap, ← hs'.front, byteLength_hide, byteLength_hide]
    exact ⟨hhead, rfl, rfl⟩
  refine ⟨head, gap, value, tail, by simp, by rw [hstart, hhead], ?_, ?_, fun c hc => hmgap c (hgap ▸ hc),
    by simpa using hs.continuation⟩
  · rw [hstop]
    simp only [Text.byteLength_append, Text.byteLength, hlengths]
    omega
  · have hcut : o.start + name.byteLength = (front ++ name).byteLength := by rw [hstart, Text.byteLength_append]
    have hdrop : (hide .start (head ++ (name ++ gap) ++ '=' :: (value ++ ';' :: tail))).dropBytes
        (o.start + name.byteLength) = mgap ++ '=' :: (body ++ ';' :: back) := by
      rw [hsign, hcut, ← List.append_assoc front, List.append_assoc (front ++ name), Text.dropBytes_byteLength]
    rw [Occurrence.signAt, sanitize_eq_hide, hdrop, (hparts.takeWhile _).1]
    simp only [Text.byteLength_append, hlengths, hstart]

variable {head gap old tail : Text}

/-- What stands between the name and the sign: blanks, and continuations. -/
theorem Read.blank_or_continued (h : Read name script o head gap old tail) (hn : isIdentifier name = true)
    {front back : Text} (hcut : gap = front ++ c :: back) :
    isGap c = true ∨ Continued script (head ++ name ++ front).byteLength := by
  have hname := ((unsigned_of_identifier hn).parted (shown_of_identifier hn).1 head (gap ++ '=' :: (old ++ ';' :: tail))).2
  have hsign : Parted gap ('=' :: (old ++ ';' :: tail)) := parted_of_ends (.inr (by simp))
  obtain ⟨marks, mark, marks', hmarks, hl, hfits, hshown⟩ :=
    exists_mark (hcut ▸ fits_scan (after .start (head ++ name)) gap)
  by_cases hblank : mark.blank = true
  · right
    have hscan : ofScript script = (scan .start (head ++ name) ++ marks) ++
        mark :: (marks' ++ scan (after (after .start (head ++ name)) gap) ('=' :: (old ++ ';' :: tail))) := by
      rw [ofScript, h.cut, scan_append hname, scan_append hsign, hcut, hmarks]
      simp
    have hchar : script = (head ++ name ++ front) ++ c :: (back ++ '=' :: (old ++ ';' :: tail)) := by
      rw [h.cut, hcut]
      simp
    refine (continued_iff hscan hchar ?_).2 hblank
    rw [List.length_append, List.length_append, (fits_scan .start (head ++ name)).length_eq, hl]
  · -- what is not blanked is shown as a blank, so it is one
    left
    have hgaps : ∀ d ∈ applyTo mark c, isGap d = true := fun d hd => h.gaps d (hcut ▸ hshown d hd)
    unfold applyTo at hgaps
    rw [if_neg hblank] at hgaps
    split at hgaps
    · exact absurd (hgaps sentinel List.mem_cons_self) (by decide)
    · exact hgaps c List.mem_cons_self

theorem Read.text (h : Read name script o head gap old tail) :
    o.text script = name ++ (gap ++ '=' :: (old ++ [';'])) := by
  have hcut : script = head ++ ((name ++ (gap ++ '=' :: (old ++ [';']))) ++ tail) := by
    rw [h.cut]
    simp
  rw [Occurrence.text, h.start, h.stop, List.append_assoc head, Text.byteLength_append head, hcut, Text.slice_byteLength]

/-- What a replacement keeps ends in the first equals sign of the text and the blanks behind it. All of that is in a
continuation if the sign is. -/
structure Keeps (script : Text) (o : Occurrence) (left blanks : Text) : Prop where
  before : o.before script = left ++ '=' :: blanks
  cutAt : o.cutAt script = left.byteLength
  sign : Continued script (o.cutAt script) ↔ (after .start left).continuation = true
  last : Continued script ((o.before script).byteLength - 1) ↔ (after .start left).continuation = true

theorem Read.keeps (h : Read name script o head gap old tail) (hn : isIdentifier name = true) {front back : Text}
    (hcut : gap ++ '=' :: (old ++ [';']) = front ++ '=' :: back) (hfirst : '=' ∉ front) :
    Keeps script o (head ++ name ++ front) (back.takeWhile isGap) := by
  have hsign : ∀ c ∈ name ++ front, decide (c ≠ '=') = true := fun c hc => by
    refine decide_eq_true ?_
    rintro rfl
    exact (List.mem_append.1 hc).elim (fun hm => ((shown_of_identifier hn).2 _ hm).1 rfl) hfirst
  have htext : o.text script = (name ++ front) ++ '=' :: back := by rw [h.text, hcut, List.append_assoc]
  have htake : script.takeBytes o.start = head := by
    rw [h.cut, h.start, List.append_assoc, Text.takeBytes_byteLength]
  have hbefore : o.before script = head ++ name ++ front ++ '=' :: back.takeWhile isGap := by
    rw [Occurrence.before, htake, htext, leftSide_append fun hm => absurd rfl (of_decide_eq_true (hsign _ hm))]
    simp
  have hcutAt : o.cutAt script = (head ++ name ++ front).byteLength := by
    rw [Occurrence.cutAt, htext, List.takeWhile_append_of_pos hsign, List.takeWhile_cons_of_neg (by decide),
      List.append_nil, h.start, List.append_assoc, Text.byteLength_append head]
  have hgaps : ∀ c ∈ back.takeWhile isGap, isGap c = true := fun c hc => List.mem_takeWhile_imp hc
  have hscript : script =
      (head ++ name ++ front) ++ (('=' :: back.takeWhile isGap) ++ (back.dropWhile isGap ++ tail)) := by
    have hback : gap ++ '=' :: (old ++ ';' :: tail) = (front ++ '=' :: back) ++ tail := by
      rw [← hcut]
      simp
    rw [h.cut, hback]
    simp [← List.append_assoc (back.takeWhile isGap)]
  have hparted : Parted (head ++ name ++ front) (('=' :: back.takeWhile isGap) ++ (back.dropWhile isGap ++ tail)) :=
    parted_of_ends (.inr (by simp))
  have hkept := unsigned_of_gaps hgaps
  -- the sign and the blanks take one byte each
  obtain ⟨init, last, hlast⟩ : ∃ init last, '=' :: back.takeWhile isGap = init ++ [last] :=
    ⟨_, _, (List.dropLast_append_getLast (List.cons_ne_nil _ _)).symm⟩
  have hone : last.utf8Size = 1 := by
    have hmem : last ∈ '=' :: back.takeWhile isGap := hlast ▸ List.mem_append_right _ List.mem_cons_self
    rcases List.mem_cons.1 hmem with rfl | hmem
    · decide
    · rcases Occurrence.isGap_iff.1 (hgaps last hmem) with rfl | rfl <;> decide
  refine ⟨hbefore, hcutAt, ?_, ?_⟩
  · have hfront := hkept.continued_iff hparted hscript (List.nil_append _).symm
    rwa [List.append_nil, ← hcutAt] at hfront
  · rw [← hkept.continued_iff hparted hscript hlast, hbefore, hlast, ← List.append_assoc]
    simp only [Text.byteLength_append, Text.byteLength, hone, Nat.add_zero, Nat.add_sub_cancel]

/-! ## Replacing the value -/

/-- A replacement cuts at the equals sign that the search has read or in a continuation in front of it. It is the same
sign unless a continuation has an equals sign: then the name, the blanks, the sign and the blanks behind it are kept,
and otherwise what is kept ends in the continuation. -/
theorem splice_sign (hn : isIdentifier name = true) (ho : o ∈ Occurrence.find (sanitize script) name) :
    ∃ head gap old tail, Read name script o head gap old tail ∧
      (∀ front c back, gap = front ++ c :: back → isGap c = true ∨ Continued script (head ++ name ++ front).byteLength) ∧
      o.cutAt script ≤ o.signAt (sanitize script) name ∧
      ('=' ∉ gap → o.cutAt script = o.signAt (sanitize script) name ∧
        ¬ Continued script (o.cutAt script) ∧ ¬ Continued script ((o.before script).byteLength - 1) ∧
        ∀ value, splice script o value =
          head ++ name ++ (gap ++ '=' :: (old.takeWhile isGap ++ (normalize value ++ ';' :: tail)))) ∧
      ('=' ∈ gap → o.cutAt script < o.signAt (sanitize script) name ∧
        Continued script (o.cutAt script) ∧ Continued script ((o.before script).byteLength - 1)) := by
  obtain ⟨head, gap, old, tail, h⟩ := exists_read hn ho
  have hgap : ∀ front c back, gap = front ++ c :: back →
      isGap c = true ∨ Continued script (head ++ name ++ front).byteLength :=
    fun _ _ _ hcut => h.blank_or_continued hn hcut
  have hstop : script.dropBytes o.stop = tail := by
    have hcut : script = head ++ name ++ (gap ++ '=' :: (old ++ [';'])) ++ tail := by
      rw [h.cut]
      simp
    rw [h.stop, hcut, Text.dropBytes_byteLength]
  refine ⟨head, gap, old, tail, h, hgap, ?_⟩
  by_cases hsign : '=' ∈ gap
  · -- the first sign in the gap is no blank, so it is in a continuation
    obtain ⟨front, back, hcut, hfirst⟩ := List.eq_append_cons_of_mem hsign
    have hfront : gap ++ '=' :: (old ++ [';']) = front ++ '=' :: (back ++ '=' :: (old ++ [';'])) := by
      rw [hcut]
      simp
    have hkeeps := h.keeps hn hfront hfirst
    have hcontinued : Continued script (o.cutAt script) := by
      rw [hkeeps.cutAt]
      exact (hgap front '=' back hcut).resolve_left (by decide)
    have hlt : o.cutAt script < o.signAt (sanitize script) name := by
      have hpos := ('=' : Char).utf8Size_pos
      rw [hkeeps.cutAt, h.signAt, hcut]
      simp only [Text.byteLength_append, Text.byteLength]
      omega
    exact ⟨hlt.le, fun hno => absurd hsign hno,
      fun _ => ⟨hlt, hcontinued, hkeeps.last.2 (hkeeps.sign.1 hcontinued)⟩⟩
  · have hkeeps := h.keeps hn rfl hsign
    have hsame : o.cutAt script = o.signAt (sanitize script) name := hkeeps.cutAt.trans h.signAt.symm
    have hcode : ¬ (after .start (head ++ name ++ gap)).continuation = true := Bool.eq_false_iff.1 h.code
    have hblanks : (old ++ [';']).takeWhile isGap = old.takeWhile isGap := by
      rw [List.takeWhile_append]
      split
      · next hall => simp [isGap, (List.takeWhile_prefix isGap).eq_of_length hall]
      · rfl
    refine ⟨hsame.le, fun _ => ⟨hsame, fun hc => hcode (hkeeps.sign.1 hc), fun hc => hcode (hkeeps.last.1 hc),
      fun value => ?_⟩, fun hmem => absurd hmem hsign⟩
    rw [splice_eq, hkeeps.before, hstop, hblanks]
    simp

/-- A continuation may stand between the name and the sign. -/
theorem splice_sign_continuation : isIdentifier "a".toList = true ∧
    (⟨0, 16, 1⟩ : Occurrence) ∈ Occurrence.find (sanitize "a ... note\n = 5;".toList) "a".toList ∧
    Occurrence.cutAt ⟨0, 16, 1⟩ "a ... note\n = 5;".toList =
      Occurrence.signAt ⟨0, 16, 1⟩ (sanitize "a ... note\n = 5;".toList) "a".toList ∧
    splice "a ... note\n = 5;".toList ⟨0, 16, 1⟩ "7".toList = "a ... note\n = 7;".toList := by
  have hn : isIdentifier "a".toList = true := by decide
  have ho : (⟨0, 16, 1⟩ : Occurrence) ∈ Occurrence.find (sanitize "a ... note\n = 5;".toList) "a".toList := by
    decide +kernel
  have hcode : ¬ Continued "a ... note\n = 5;".toList (Occurrence.cutAt ⟨0, 16, 1⟩ "a ... note\n = 5;".toList) := by
    decide +kernel
  obtain ⟨_, gap, _, _, -, -, -, hsame, hother⟩ := splice_sign hn ho
  have hsign : '=' ∉ gap := fun hmem => hcode (hother hmem).2.1
  exact ⟨hn, ho, (hsame hsign).1, by decide +kernel⟩

/-- An equals sign in the continuation takes its place: the value is put in the continuation, and what is executed is a
name without a value. -/
theorem splice_sign_continued : isIdentifier "a".toList = true ∧
    Occurrence.find (sanitize "a ... b = 3\n = 5;".toList) "a".toList = [⟨0, 17, 1⟩] ∧
    Occurrence.cutAt ⟨0, 17, 1⟩ "a ... b = 3\n = 5;".toList = 8 ∧
    Occurrence.signAt ⟨0, 17, 1⟩ (sanitize "a ... b = 3\n = 5;".toList) "a".toList = 13 ∧
    Continued "a ... b = 3\n = 5;".toList 8 ∧
    splice "a ... b = 3\n = 5;".toList ⟨0, 17, 1⟩ "7".toList = "a ... b = 7;".toList := by
  decide +kernel

end Edit

end ConfigScript
