import ConfigScript.Proofs.Kept
import ConfigScript.Proofs.MaskBytes
/-!
# Occurrences and character boundaries

A text cannot be cut inside a character (`Text.cut?`). Occurrences are found in masked text, and the script
itself is cut at their offsets. An occurrence begins with its name and ends with a semicolon, both of which
the mask shows where the script has them, so its offsets are boundaries of both texts (`find_placed`), and
cutting at them never fails. Replacing the occurrences from the last to the first keeps the boundaries of
those in front (`replaceAll?_eq`).
-/

namespace ConfigScript

namespace Text

variable {t front back span : Text} {start stop n : Nat}

/-- A character begins at this byte, or the text ends there. -/
def Boundary (t : Text) (n : Nat) : Prop := ∃ front back, t = front ++ back ∧ byteLength front = n

/-- The text cut at a byte, if that is a boundary. -/
def cut? (n : Nat) (t : Text) : Option (Text × Text) :=
  if byteLength (takeBytes n t) = n then some (splitAtByte n t) else none

/-- The bytes from `start` up to `stop`, if both are boundaries in this order. -/
def slice? (start stop : Nat) (t : Text) : Option Text := do
  let (front, _) ← cut? stop t
  let (_, span) ← cut? start front
  return span

theorem cut?_eq_some : cut? n t = some (front, back) ↔ t = front ++ back ∧ byteLength front = n := by
  unfold cut?
  constructor
  · intro h
    split at h
    · next hn =>
      have hcut := Option.some.inj h
      have happ := splitAtByte_append n t
      rw [takeBytes, hcut] at hn
      rw [hcut] at happ
      exact ⟨happ.symm, hn⟩
    · cases h
  · rintro ⟨rfl, rfl⟩
    rw [takeBytes_byteLength, if_pos rfl, splitAtByte_byteLength]

theorem cut?_byteLength (t u : Text) : cut? (byteLength t) (t ++ u) = some (t, u) := cut?_eq_some.2 ⟨rfl, rfl⟩

theorem slice?_eq_some : slice? start stop t = some span ↔
    ∃ front back, t = front ++ (span ++ back) ∧ byteLength front = start ∧ byteLength (front ++ span) = stop := by
  unfold slice?
  constructor
  · intro h
    obtain ⟨⟨upTo, back⟩, hback, h⟩ := Option.bind_eq_some_iff.1 h
    obtain ⟨⟨front, _⟩, hfront, h⟩ := Option.bind_eq_some_iff.1 h
    cases h
    obtain ⟨rfl, hstop⟩ := cut?_eq_some.1 hback
    obtain ⟨rfl, hstart⟩ := cut?_eq_some.1 hfront
    exact ⟨front, back, List.append_assoc _ _ _, hstart, hstop⟩
  · rintro ⟨front, back, rfl, rfl, rfl⟩
    rw [← List.append_assoc, cut?_byteLength]
    show (cut? (byteLength front) (front ++ span)).bind (fun x => some x.2) = some span
    rw [cut?_byteLength]
    rfl

theorem Boundary.le (h : Boundary t n) : n ≤ byteLength t := by
  obtain ⟨front, back, rfl, rfl⟩ := h
  rw [byteLength_append]
  exact Nat.le_add_right _ _

theorem boundaries_of_append (front span back : Text) :
    Boundary (front ++ (span ++ back)) (byteLength front) ∧
      Boundary (front ++ (span ++ back)) (byteLength (front ++ span)) :=
  ⟨⟨front, span ++ back, rfl, rfl⟩, ⟨front ++ span, back, (List.append_assoc _ _ _).symm, rfl⟩⟩

end Text

namespace Edit

open Occurrence (isGap)

variable {script name left right t : Text} {offset : Nat} {o : Occurrence}

/-! ## Cuts that may fail -/

/-- The text of an occurrence, cut out at boundaries only. -/
def Occurrence.text? (o : Occurrence) (script : Text) : Option Text := script.slice? o.start o.stop

/-- The line of an occurrence, counted in the bytes in front of it. -/
def Occurrence.line? (o : Occurrence) (script : Text) : Option Nat :=
  if o.start ≤ (utf8 script).length then some (((utf8 script).take o.start).count 0x0A + 1) else none

/-- The bytes of an occurrence up to its first equals sign and the blanks behind it. -/
def leftLength? (t : Text) : Option Nat :=
  match t.dropWhile (· ≠ '=') with
  | [] => some (Text.byteLength t)
  | _ :: _ => do
    let sign := Text.byteLength (t.takeWhile (· ≠ '='))
    let (_, rest) ← t.cut? (sign + 1)
    return sign + 1 + (Text.byteLength rest - Text.byteLength (rest.dropWhile isGap))

/-- The script with the right side of an occurrence replaced, cut at boundaries only. -/
def splice? (script : Text) (o : Occurrence) (value : Text) : Option Text := do
  let text ← o.text? script
  let left ← leftLength? text
  let (front, _) ← script.cut? (o.start + left)
  let (_, back) ← script.cut? o.stop
  return front ++ (normalize value ++ ';' :: back)

/-- The bytes from `start` to `stop` replaced, if both are boundaries in this order. -/
def replaceSpan? (t : Text) (start stop : Nat) (new : Text) : Option Text := do
  let (upTo, back) ← t.cut? stop
  let (front, _) ← upTo.cut? start
  return front ++ (new ++ back)

/-- Every occurrence replaced, the last one first. -/
def replaceAll? (masked : Text) (occurrences : List Occurrence) : Option Text :=
  occurrences.foldr (fun o t => t.bind (replaceSpan? · o.start o.stop (appendId o.id))) (some masked)

/-- The traced copy of a masked script, cut at boundaries only. -/
def instrument? (masked : Text) (occurrences : List Occurrence) : Option Text :=
  (replaceAll? masked occurrences).map fun t => traceName ++ " = [];\n".toList ++ unmask t

/-! ## Cuts of an occurrence -/

theorem count_utf8 (t : Text) : (utf8 t).count 0x0A = t.lineBreaks := by
  induction t with
  | nil => rfl
  | cons c t ih =>
    rw [utf8_cons, List.count_append, ih, Text.lineBreaks, Text.lineBreaks, List.count_cons, Nat.add_comm]
    congr 1
    by_cases hc : c = '\n'
    · subst hc
      rfl
    · have hno : 0x0A ∉ String.utf8EncodeChar c := fun h => hc (eq_of_mem_utf8EncodeChar (by decide) h)
      rw [List.count_eq_zero_of_not_mem hno, if_neg (by simpa using hc)]

theorem line?_of_append (h : script = t ++ right) (hstart : o.start = Text.byteLength t) :
    o.line? script = some (o.line script) := by
  subst h
  have htake : (utf8 (t ++ right)).take (Text.byteLength t) = utf8 t := by
    rw [utf8_append, ← length_utf8, List.take_left]
  have hle : Text.byteLength t ≤ (utf8 (t ++ right)).length := by
    rw [length_utf8, Text.byteLength_append]
    exact Nat.le_add_right _ _
  rw [Occurrence.line?, hstart, if_pos hle, htake, count_utf8, Occurrence.line, hstart, Text.takeBytes_byteLength]

theorem LeftSide.leftLength? (h : LeftSide name left right) :
    Edit.leftLength? (left ++ right) = some (Text.byteLength left) := by
  obtain ⟨gap, blanks, rfl, hfirst, hblanks⟩ := h.spelled
  have hcut : name ++ (gap ++ '=' :: blanks) ++ right = (name ++ gap) ++ '=' :: (blanks ++ right) := by simp
  have hall : ∀ c ∈ name ++ gap, decide (c ≠ '=') = true := by
    intro c hc
    rw [decide_eq_true_eq]
    rintro rfl
    exact hfirst hc
  have htake : ((name ++ gap) ++ '=' :: (blanks ++ right)).takeWhile (· ≠ '=') = name ++ gap := by
    rw [List.takeWhile_append_of_pos hall]
    simp
  have hdrop : ((name ++ gap) ++ '=' :: (blanks ++ right)).dropWhile (· ≠ '=') = '=' :: (blanks ++ right) := by
    rw [List.dropWhile_append_of_pos hall]
    simp
  have hrest : ((name ++ gap) ++ '=' :: (blanks ++ right)).cut? (Text.byteLength (name ++ gap) + 1) =
      some (name ++ gap ++ ['='], blanks ++ right) :=
    Text.cut?_eq_some.2 ⟨by simp, Text.byteLength_append _ _⟩
  have hgone : (blanks ++ right).dropWhile isGap = right := by
    rw [List.dropWhile_append_of_pos hblanks]
    cases right with
    | nil => rfl
    | cons c right => rw [List.dropWhile_cons_of_neg (by simp [h.ends c rfl])]
  rw [hcut, Edit.leftLength?, hdrop, htake]
  dsimp only
  rw [hrest]
  show some (Text.byteLength (name ++ gap) + 1 + (Text.byteLength (blanks ++ right) -
    Text.byteLength ((blanks ++ right).dropWhile isGap))) = _
  have hsign : '='.utf8Size = 1 := rfl
  rw [hgone, Text.byteLength_append blanks, Nat.add_sub_cancel, Text.byteLength_append name,
    Text.byteLength_append name, Text.byteLength_append gap, Text.byteLength, hsign]
  congr 1
  omega

/-- Where an occurrence cuts its script like this, it can be cut out and its value replaced. -/
theorem splice?_of_append {head tail : Text} (h : script = head ++ (left ++ (right ++ tail)))
    (hstart : o.start = Text.byteLength head) (hstop : o.stop = Text.byteLength (head ++ (left ++ right)))
    (hleft : LeftSide name left right) (value : Text) : o.text? script = some (left ++ right) ∧
      splice? script o value = some (head ++ (left ++ (normalize value ++ ';' :: tail))) := by
  have htext : o.text? script = some (left ++ right) :=
    Text.slice?_eq_some.2 ⟨head, tail, by rw [h, List.append_assoc left], hstart.symm, hstop.symm⟩
  have hfront : script.cut? (o.start + Text.byteLength left) = some (head ++ left, right ++ tail) :=
    Text.cut?_eq_some.2 ⟨by rw [h, List.append_assoc], by rw [Text.byteLength_append, hstart]⟩
  have hback : script.cut? o.stop = some (head ++ (left ++ right), tail) :=
    Text.cut?_eq_some.2 ⟨by simp [h], hstop.symm⟩
  refine ⟨htext, ?_⟩
  -- the cuts are made one after the other
  rw [splice?, htext]
  show (Edit.leftLength? (left ++ right)).bind _ = _
  rw [hleft.leftLength?]
  show (script.cut? _).bind _ = _
  rw [hfront]
  show (script.cut? _).bind _ = _
  rw [hback]
  show some (head ++ left ++ (normalize value ++ ';' :: tail)) = _
  rw [List.append_assoc]

/-- An occurrence lies within its script, on boundaries of it and of the masked text. No cut at it fails, so it
gives the same text, line and replacement as cuts that do not look for boundaries. -/
structure Occurrence.Placed (script : Text) (o : Occurrence) : Prop where
  nonempty : o.start < o.stop
  within : o.stop ≤ Text.byteLength script
  inScript : script.Boundary o.start ∧ script.Boundary o.stop
  inMasked : (sanitize script).Boundary o.start ∧ (sanitize script).Boundary o.stop
  text : o.text? script = some (o.text script)
  line : o.line? script = some (o.line script)
  splice : ∀ value, splice? script o value = some (Edit.splice script o value)

theorem boundaries_find {masked : Text} (hn : isIdentifier name = true) (ho : o ∈ Occurrence.find masked name) :
    masked.Boundary o.start ∧ masked.Boundary o.stop := by
  obtain ⟨front, span, back, rfl, -, -, hstart, hstop⟩ := find_assigns hn ho
  have hb := Text.boundaries_of_append front span back
  rwa [← hstart, ← hstop] at hb

theorem find_placed (hn : isIdentifier name = true) (ho : o ∈ Occurrence.find (sanitize script) name) :
    o.Placed script := by
  obtain ⟨head, left, right, tail, hcut, hstart, hstop, hleft, hsplice⟩ := splice_eq_append hn ho
  have hwhole : script = head ++ ((left ++ right) ++ tail) := by rw [hcut, List.append_assoc left]
  have hscript : script.Boundary o.start ∧ script.Boundary o.stop := by
    have hb := Text.boundaries_of_append head (left ++ right) tail
    rwa [← hwhole, ← hstart, ← hstop] at hb
  have hcuts := splice?_of_append hcut hstart hstop hleft
  refine ⟨?_, hscript.2.le, hscript, boundaries_find hn ho, ?_, line?_of_append hcut hstart, fun value => ?_⟩
  · -- the left side holds an equals sign
    obtain ⟨gap, blanks, rfl, -, -⟩ := hleft.spelled
    rw [hstart, hstop, Text.byteLength_append]
    exact Nat.lt_add_of_pos_right (Text.byteLength_pos (by simp))
  · rw [(hcuts []).1, Occurrence.text, hwhole, hstart, hstop, Text.byteLength_append, Text.slice_byteLength]
  · rw [(hcuts value).2, hsplice]

/-! ## Replacing all occurrences -/

theorem replaceSpan?_append (front old new back : Text) :
    replaceSpan? (front ++ (old ++ back)) (Text.byteLength front) (Text.byteLength (front ++ old)) new =
      some (replaceSpan (front ++ (old ++ back)) (Text.byteLength front) (Text.byteLength (front ++ old)) new) := by
  rw [replaceSpan_append, replaceSpan?, ← List.append_assoc, Text.cut?_byteLength]
  show (Text.cut? _ (front ++ old)).bind _ = _
  rw [Text.cut?_byteLength]
  rfl

/-- Spans that lie one behind the other can all be replaced, the last one first. -/
theorem replaceAll?_eq {os : List Occurrence} {front : Text} (h : Laid offset t os)
    (hf : Text.byteLength front = offset) : replaceAll? (front ++ t) os = some (replaceAll (front ++ t) os) := by
  induction h generalizing front with
  | done => rfl
  | @next offset gap span tail o os hstart hstop hmore ih =>
    -- what has been replaced behind this span does not reach into it
    have hbehind : Text.byteLength (front ++ gap ++ span) = o.stop := by
      rw [hstop, List.append_assoc, Text.byteLength_append, hf]
    have hall : front ++ (gap ++ (span ++ tail)) = front ++ gap ++ span ++ tail := by simp
    rw [hall]
    show (replaceAll? (front ++ gap ++ span ++ tail) os).bind _ = some (replaceSpan (replaceAll _ os) _ _ _)
    rw [ih hbehind, hmore.replaceAll_eq hbehind, Option.bind_some, ← hbehind, hstart, ← hf, ← Text.byteLength_append,
      List.append_assoc (front ++ gap)]
    exact replaceSpan?_append _ _ _ _

/-- At spans that lie one behind the other the traced copy is made without a cut that fails. -/
theorem Laid.instrument?_eq {masked : Text} {os : List Occurrence} (h : Laid 0 masked os) :
    instrument? masked os = some (instrument masked os) := by
  have hall : replaceAll? ([] ++ masked) os = some (replaceAll ([] ++ masked) os) := replaceAll?_eq h rfl
  rw [List.nil_append] at hall
  rw [instrument?, hall]
  rfl

theorem instrument?_find (hn : isIdentifier name = true) (script : Text) :
    instrument? (sanitize script) (Occurrence.find (sanitize script) name) =
      some (instrument (sanitize script) (Occurrence.find (sanitize script) name)) :=
  (spread_find hn (sanitize script)).laid.instrument?_eq

/-! ## Masking, locating and cutting -/

/-- One pass over its bytes masks a script byte for byte, the result is text, and the marks are those of the
mask. What is found of any name in it can be cut out of the script and replaced there and in the masked text.
A script that the sentinel does not occur in is had back, but for its continuations. -/
theorem sanitize_bytewise (hn : isIdentifier name = true) :
    let bytes := markBytes (utf8 script)
    let found := Occurrence.find (sanitize script) name
    (bytes.map Prod.fst = utf8 script ∧
      String.fromUTF8? (bytes.map maskByte).toByteArray = some (String.ofList (sanitize script)) ∧
      Text.byteLength (sanitize script) = Text.byteLength script ∧
      (∀ x ∈ bytes, x.2.protect = true → x.1 = 0x3B) ∧
      ∀ p, Mask.offsets p 0 (Mask.ofScript script) script = (bytes.zipIdx.filter fun x => p x.1.2).map Prod.snd) ∧
    (∀ o ∈ found, o.Placed script) ∧
    instrument? (sanitize script) found = some (instrument (sanitize script) found) ∧
    (sentinel ∉ script → utf8 (unmask (sanitize script)) = bytes.map blankByte) := by
  refine ⟨⟨fst_markBytes _, fromUTF8?_maskByte script, byteLength_hide .start script, fun x => protect_markBytes,
    fun p => ?_⟩, fun o => find_placed hn, instrument?_find hn script, utf8_unmask_sanitize⟩
  rw [markBytes_utf8, offsets_eq]

/-- The accented letters stand in a string and in a continuation. -/
theorem sanitize_bytewise_accented :
    let script := "s = 'é;'; a = 1 + ... ü;\n 2;".toList
    let name := "a".toList
    let bytes := markBytes (utf8 script)
    let found := Occurrence.find (sanitize script) name
    (isIdentifier name = true ∧ sentinel ∉ script ∧ found = [⟨11, 30, 1⟩]) ∧
      String.fromUTF8? (bytes.map maskByte).toByteArray = some (String.ofList (sanitize script)) ∧
      (∀ o ∈ found, o.Placed script) ∧
      instrument? (sanitize script) found = some (instrument (sanitize script) found) ∧
      utf8 (unmask (sanitize script)) = bytes.map blankByte := by
  intro script name bytes found
  have hn : isIdentifier name = true := by decide
  have hs : sentinel ∉ script := by decide
  have hfound : found = [⟨11, 30, 1⟩] := by decide +kernel
  obtain ⟨⟨-, hdecodes, -⟩, hplaced, hinstrument, hunmask⟩ := @sanitize_bytewise script name hn
  exact ⟨⟨hn, hs, hfound⟩, hdecodes, hplaced, hinstrument, hunmask hs⟩

end Edit

end ConfigScript
