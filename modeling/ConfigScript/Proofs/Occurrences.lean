import ConfigScript.Edit.Trace
import ConfigScript.Program
import ConfigScript.Proofs.Unmasking
/-!
# Occurrences in the text

The occurrences of an assignment lie in the masked text one behind the other, each where a name may
begin (`spans_spread`). They lie so in the unmasked text too. Replacing spans from the last one to the first
leaves the text in front of each of them as it is, so what comes out is known from the offsets that they had
before (`Laid.replaceAll_eq`).
-/

namespace ConfigScript

namespace Edit

open Occurrence (lastOr spans shape? rightSide? isGap)

variable {P Q : Text → Prop} {name t u : Text} {before : Option Char} {offset : Nat} {found : List (Nat × Nat)}

/-- A name may begin behind this character: it does not go on with it and is not its dot. -/
def Opens (before : Option Char) : Prop := ∀ x ∈ before, Token.isNamePart x = false ∧ x ≠ '.'

/-- Spans of texts that satisfy `P` lie in the text one behind the other, and a name may begin where each
of them does. The text has this character in front and this offset. -/
inductive Spread (P : Text → Prop) : Option Char → Nat → Text → List (Nat × Nat) → Prop
  | done {before : Option Char} {offset : Nat} {t : Text} : Spread P before offset t []
  | next {before : Option Char} {offset : Nat} {gap span tail : Text} {found : List (Nat × Nat)} :
    Opens (lastOr before gap) → P span →
    Spread P (lastOr before (gap ++ span)) (offset + Text.byteLength (gap ++ span)) tail found →
    Spread P before offset (gap ++ (span ++ tail))
      ((offset + Text.byteLength gap, offset + Text.byteLength (gap ++ span)) :: found)

/-- The statement `name = …;` as it is searched for. -/
inductive Assigns (name : Text) : Text → Prop
  | mk {gap body : Text} : (∀ c ∈ gap, isGap c = true) → (∀ c ∈ body, c ≠ ';' ∧ c ≠ '\n') →
      Assigns name (name ++ (gap ++ '=' :: (body ++ [';'])))

theorem lastOr_append (before : Option Char) (t u : Text) : lastOr before (t ++ u) = lastOr (lastOr before t) u := by
  simp only [lastOr, List.getLast?_append, Option.or_assoc]

theorem Spread.pass (h : Spread P (lastOr before u) (offset + Text.byteLength u) t found) :
    Spread P before offset (u ++ t) found := by
  cases h with
  | done => exact .done
  | @next _ _ gap span tail found hopens hspan hmore =>
    rw [← lastOr_append] at hopens
    rw [← lastOr_append, Nat.add_assoc, ← Text.byteLength_append, ← List.append_assoc] at hmore
    have h := Spread.next hopens hspan hmore
    simpa only [Nat.add_assoc, ← Text.byteLength_append, List.append_assoc] using h

/-- Where a span of the text lies. -/
theorem Spread.mem (h : Spread P before offset t found) {start stop : Nat} (hm : (start, stop) ∈ found) :
    ∃ front span tail, t = front ++ (span ++ tail) ∧ Opens (lastOr before front) ∧ P span ∧
      start = offset + Text.byteLength front ∧ stop = offset + Text.byteLength (front ++ span) := by
  induction h with
  | done => cases hm
  | @next before offset gap span tail found hopens hspan _ ih =>
    rcases List.mem_cons.1 hm with heq | hm
    · cases heq
      exact ⟨gap, span, tail, rfl, hopens, hspan, rfl, rfl⟩
    · obtain ⟨front, span', tail', rfl, hopens', hspan', rfl, rfl⟩ := ih hm
      rw [← lastOr_append] at hopens'
      refine ⟨gap ++ span ++ front, span', tail', by simp, hopens', hspan', ?_, ?_⟩ <;>
        simp only [Text.byteLength_append, Nat.add_assoc]

theorem rightSide?_append {right : Text} (h : rightSide? t = some right) :
    ∃ body tail, right = '=' :: (body ++ [';']) ∧ (∀ c ∈ body, c ≠ ';' ∧ c ≠ '\n') ∧
      t = t.takeWhile isGap ++ (right ++ tail) := by
  unfold rightSide? at h
  split at h
  · next value heq =>
    dsimp only at h
    split at h
    · next tail htail =>
      cases h
      refine ⟨_, tail, rfl, fun c hc => by simpa using List.mem_takeWhile_imp hc, ?_⟩
      have hvalue : value = value.takeWhile (fun c => c ≠ ';' && c ≠ '\n') ++ ';' :: tail := by
        rw [← htail, List.prefix_iff_eq_append.1 (List.takeWhile_prefix _)]
      have ht : t = t.takeWhile isGap ++ '=' :: value := by rw [← heq, List.takeWhile_append_dropWhile]
      refine ht.trans ?_
      conv_lhs => rw [hvalue]
      simp
    · cases h
  · cases h

theorem shape?_append {statement : Text} (h : shape? name t = some statement) :
    ∃ tail, t = statement ++ tail ∧ Assigns name statement := by
  unfold shape? at h
  obtain ⟨afterName, hname, h⟩ := Option.bind_eq_some_iff.1 h
  obtain ⟨right, hright, h⟩ := Option.bind_eq_some_iff.1 h
  cases h
  obtain ⟨body, tail, rfl, hbody, htail⟩ := rightSide?_append hright
  rw [List.append_assoc]
  refine ⟨tail, ?_, .mk (fun c hc => List.mem_takeWhile_imp hc) hbody⟩
  rw [Text.dropHead?_eq_some.1 hname, List.append_assoc, List.append_assoc, ← htail]

theorem isWordCharacter_of_namePart {c : Char} (h : Token.isNamePart c = true) : isWordCharacter c = true := by
  have hcodes := Token.codes_of_namePart h
  have hascii : c.toNat < 0x80 := by omega
  rw [isWordCharacter, if_pos hascii]
  exact h

theorem exists_head (h : isIdentifier name = true) :
    ∃ c t, name = c :: t ∧ c.isAlpha = true := by
  cases name with
  | nil => cases h
  | cons c t =>
    simp only [isIdentifier, Bool.and_eq_true] at h
    exact ⟨c, t, rfl, h.1.1.1⟩

/-- The characters of a name are those that names are read with. -/
theorem namePart_of_identifier (h : isIdentifier name = true) : ∀ c ∈ name, Token.isNamePart c = true := by
  cases name with
  | nil => cases h
  | cons a letters =>
    simp only [isIdentifier, Bool.and_eq_true, List.all_eq_true] at h
    intro c hc
    rcases List.mem_cons.1 hc with rfl | hc
    · simp [Token.isNamePart, Char.isAlphanum, h.1.1.1]
    · exact h.1.1.2 c hc

/-- A name may begin at a word boundary that no point stands in front of. -/
theorem opens_of_boundary (h : isWordBoundary before (some c) = true) (hc : isWordCharacter c = true)
    (hdot : before ≠ some '.') : Opens before := by
  intro x hx
  obtain rfl := Option.mem_def.1 hx
  have hx : isWordCharacter x = false := by simpa [isWordBoundary, hc] using h
  refine ⟨Bool.eq_false_iff.2 fun hpart => ?_, fun heq => hdot (congrArg some heq)⟩
  rw [isWordCharacter_of_namePart hpart] at hx
  cases hx

/-- Occurrences lie one behind the other, and a name may begin where each of them does. -/
theorem spans_spread (hn : isIdentifier name = true) (before : Option Char) (offset : Nat) (t : Text) :
    Spread (Assigns name) before offset t (spans name before offset t) := by
  induction hl : t.length using Nat.strongRecOn generalizing before offset t with
  | ind n ih =>
    subst hl
    cases t with
    | nil =>
      rw [spans]
      exact .done
    | cons c rest =>
      -- the search goes on behind any number of characters
      have hpass : ∀ n, Spread (Assigns name) before offset (c :: rest) (spans name (lastOr before (c :: rest.take n))
          (offset + Text.byteLength (c :: rest.take n)) (rest.drop n)) := by
        intro n
        have hshort : (rest.drop n).length < (c :: rest).length := by
          simp only [List.length_drop, List.length_cons]
          omega
        have h := ih _ hshort (lastOr before (c :: rest.take n)) (offset + Text.byteLength (c :: rest.take n))
          (rest.drop n) rfl
        have hsplit : c :: rest = c :: rest.take n ++ rest.drop n := by simp
        rw [hsplit]
        exact h.pass
      rw [spans]
      dsimp only
      split
      · next hboundary =>
        split
        · exact hpass 0
        · next statement hshape =>
          split
          · exact hpass _
          · next hno =>
            obtain ⟨tail, htail, hassigns⟩ := shape?_append hshape
            obtain ⟨d, letters, hname, hd⟩ := exists_head hn
            obtain ⟨more, rfl⟩ : ∃ more, statement = d :: more := by
              cases hassigns
              rw [hname]
              exact ⟨_, rfl⟩
            rw [List.cons_append] at htail
            obtain ⟨rfl, rfl⟩ := List.cons.inj htail
            have hword : isWordCharacter c = true :=
              isWordCharacter_of_namePart (by simp [Token.isNamePart, Char.isAlphanum, hd])
            have hopens : Opens before := opens_of_boundary hboundary hword fun hdot => hno (by simp [hdot])
            have hshort : tail.length < (c :: (more ++ tail)).length := by
              simp only [List.length_append, List.length_cons]
              omega
            have hmore := ih _ hshort (lastOr before (c :: more)) (offset + Text.byteLength (c :: more)) tail rfl
            have htake : List.take ((c :: more).length - 1) (more ++ tail) = more := List.take_left
            have hdrop : List.drop ((c :: more).length - 1) (more ++ tail) = tail := List.drop_left
            rw [htake, hdrop]
            exact @Spread.next _ before offset [] (c :: more) tail _ hopens hassigns hmore
      · exact hpass 0

/-! ## Unmasked text -/

/-- What unmasking makes of a character. -/
def unmasked (c : Char) : Char := if c = sentinel then ';' else c

theorem utf8Size_unmasked (c : Char) : (unmasked c).utf8Size = c.utf8Size := by
  unfold unmasked
  split
  · next h =>
    rw [h]
    rfl
  · rfl

theorem splitAtByte_unmask (n : Nat) (t : Text) :
    Text.splitAtByte n (unmask t) = (unmask (Text.splitAtByte n t).1, unmask (Text.splitAtByte n t).2) := by
  induction t generalizing n with
  | nil => rfl
  | cons c t ih =>
    show Text.splitAtByte n (unmasked c :: unmask t) = _
    simp only [Text.splitAtByte, utf8Size_unmasked, ih]
    split <;> rfl

theorem byteLength_unmask (t : Text) : (unmask t).byteLength = t.byteLength := by
  induction t with
  | nil => rfl
  | cons c t ih =>
    show Text.byteLength (unmasked c :: unmask t) = _
    rw [Text.byteLength, Text.byteLength, utf8Size_unmasked, ih]

theorem Opens.unmask (h : Opens before) : Opens (before.map unmasked) := by
  intro x hx
  obtain ⟨y, hy, rfl⟩ := Option.map_eq_some_iff.1 hx
  unfold unmasked
  split
  · decide
  · exact h y hy

theorem lastOr_unmask (before : Option Char) (t : Text) :
    lastOr (before.map unmasked) (unmask t) = (lastOr before t).map unmasked := by
  rw [lastOr, lastOr, Option.map_or, ← List.getLast?_map]
  rfl

theorem Spread.unmask (h : Spread P before offset t found) (hspans : ∀ span, P span → Q (unmask span)) :
    Spread Q (before.map unmasked) offset (unmask t) found := by
  induction h with
  | done => exact .done
  | @next before offset gap span tail found hopens hspan _ ih =>
    have hopens : Opens (lastOr (before.map unmasked) (Edit.unmask gap)) := by
      rw [lastOr_unmask]
      exact hopens.unmask
    rw [← lastOr_unmask, ← byteLength_unmask (gap ++ span), unmask_append] at ih
    have h := Spread.next hopens (hspans span hspan) ih
    simpa only [unmask_append, ← byteLength_unmask (gap ++ span), ← byteLength_unmask gap] using h

/-! ## Replacing -/

theorem not_mem_appendId (id : Nat) : sentinel ∉ appendId id := by
  have hdigits : sentinel ∉ Text.ofNat id := fun hm => absurd (Text.isDigit_of_mem_ofNat hm) (by decide)
  have hrest : sentinel ∉ traceName ∧ sentinel ∉ " = [".toList ∧ sentinel ∉ ", ".toList ∧ sentinel ∉ "];".toList := by
    decide
  simp only [appendId, List.mem_append, not_or]
  exact ⟨⟨⟨⟨⟨hrest.1, hrest.2.1⟩, hrest.1⟩, hrest.2.2.1⟩, hdigits⟩, hrest.2.2.2⟩

theorem unmask_of_not_mem (h : sentinel ∉ t) : unmask t = t := by
  have hsame : ∀ c ∈ t, unmasked c = c := by
    intro c hc
    refine if_neg ?_
    rintro rfl
    exact h hc
  exact (List.map_congr_left hsame).trans (List.map_id t)

theorem unmask_replaceAll (t : Text) (os : List Occurrence) :
    unmask (replaceAll t os) = replaceAll (unmask t) os := by
  induction os with
  | nil => rfl
  | cons o os ih =>
    show unmask (replaceSpan (replaceAll t os) o.start o.stop (appendId o.id)) =
      replaceSpan (replaceAll (unmask t) os) o.start o.stop (appendId o.id)
    rw [← ih, replaceSpan, replaceSpan, unmask_append, unmask_append, unmask_of_not_mem (not_mem_appendId o.id),
      Text.takeBytes, Text.takeBytes, Text.dropBytes, Text.dropBytes, splitAtByte_unmask, splitAtByte_unmask]

/-- The span of an occurrence. -/
def Occurrence.span (o : Occurrence) : Nat × Nat := (o.start, o.stop)

theorem replaceSpan_append (front old new back : Text) :
    replaceSpan (front ++ (old ++ back)) front.byteLength (front ++ old).byteLength new = front ++ (new ++ back) := by
  have hback := Text.dropBytes_byteLength (front ++ old) back
  rw [List.append_assoc] at hback
  rw [replaceSpan, Text.takeBytes_byteLength, hback, List.append_assoc]

/-- The first of the occurrences replaced, behind which the others have been. -/
theorem replaceAll_cons {o : Occurrence} {os : List Occurrence} (front old back : Text)
    (hstart : o.start = front.byteLength) (hstop : o.stop = (front ++ old).byteLength)
    (h : replaceAll t os = front ++ (old ++ back)) :
    replaceAll t (o :: os) = front ++ (appendId o.id ++ back) := by
  show replaceSpan (replaceAll t os) o.start o.stop (appendId o.id) = _
  rw [h, hstart, hstop, replaceSpan_append]

/-- How the first of the occurrences cuts the text. -/
theorem Spread.of_cons {o : Occurrence} {os : List Occurrence}
    (h : Spread P before offset t ((o :: os).map Occurrence.span)) :
    ∃ gap span tail, t = gap ++ (span ++ tail) ∧ Opens (lastOr before gap) ∧
      o.start = offset + Text.byteLength gap ∧ o.stop = offset + Text.byteLength (gap ++ span) ∧
      Spread P (lastOr before (gap ++ span)) (offset + Text.byteLength (gap ++ span)) tail
        (os.map Occurrence.span) := by
  generalize hfound : (o :: os).map Occurrence.span = found at h
  cases h with
  | done => cases hfound
  | @next _ _ gap span tail found hopens _ hmore =>
    rw [List.map_cons] at hfound
    obtain ⟨hspan, rfl⟩ := List.cons.inj hfound
    obtain ⟨hstart, hstop⟩ := Prod.mk.inj hspan
    exact ⟨gap, span, tail, rfl, hopens, hstart, hstop, hmore⟩

/-- Spans lie in the text one behind the other. The text has this offset. -/
inductive Laid : Nat → Text → List Occurrence → Prop
  | done {offset : Nat} {t : Text} : Laid offset t []
  | next {offset : Nat} {gap span tail : Text} {o : Occurrence} {os : List Occurrence} :
    o.start = offset + Text.byteLength gap → o.stop = offset + Text.byteLength (gap ++ span) →
    Laid o.stop tail os → Laid offset (gap ++ (span ++ tail)) (o :: os)

theorem Spread.laid {os : List Occurrence} (h : Spread P before offset t (os.map Occurrence.span)) :
    Laid offset t os := by
  induction os generalizing before offset t with
  | nil => exact .done
  | cons o os ih =>
    obtain ⟨gap, span, tail, rfl, -, hstart, hstop, hmore⟩ := h.of_cons
    exact .next hstart hstop (hstop ▸ ih hmore)

/-- What stands between the spans from an offset on, in front of the first one and behind the last one, with
every span replaced. -/
def woven (gap : Text → Text) (t : Text) (offset : Nat) : List Occurrence → Text
  | [] => gap (t.dropBytes offset)
  | o :: os => gap (t.slice offset o.start) ++ (appendId o.id ++ woven gap t o.stop os)

/-- Replacing from the last span to the first gives what stands between them and what replaces them in order. The
induction is on the spans: behind each of them the text is already woven, and in front of it nothing has moved. -/
theorem Laid.replaceAll_eq {os : List Occurrence} {front : Text} (h : Laid offset t os) (hf : front.byteLength = offset) :
    replaceAll (front ++ t) os = front ++ woven id (front ++ t) offset os := by
  induction h generalizing front with
  | @done offset t =>
    subst hf
    rw [woven, Text.dropBytes_byteLength]
    rfl
  | @next offset gap span tail o os hstart hstop _ ih =>
    have hbehind : (front ++ gap ++ span).byteLength = o.stop := by
      rw [hstop, List.append_assoc, Text.byteLength_append, hf]
    have hall : front ++ (gap ++ (span ++ tail)) = front ++ gap ++ span ++ tail := by simp
    have hgap : (front ++ gap ++ span ++ tail).slice offset o.start = gap := by
      rw [← hall, hstart, ← hf]
      exact Text.slice_byteLength front gap (span ++ tail)
    have hmore := (ih hbehind).trans (List.append_assoc (front ++ gap) span _)
    have hstart : o.start = (front ++ gap).byteLength := by rw [hstart, Text.byteLength_append, hf]
    rw [hall, woven, hgap, replaceAll_cons (front ++ gap) span _ hstart hbehind.symm hmore, List.append_assoc]
    rfl

theorem find_spans (masked name : Text) :
    (Occurrence.find masked name).map Occurrence.span = spans name none 0 masked := by
  refine List.ext_getElem (by simp [Occurrence.find]) fun i h₁ h₂ => ?_
  simp [Occurrence.find, Occurrence.span]

theorem spread_find (hn : isIdentifier name = true) (masked : Text) :
    Spread (Assigns name) none 0 masked ((Occurrence.find masked name).map Occurrence.span) := by
  rw [find_spans]
  exact spans_spread hn none 0 masked

/-- What is found is a statement, and a name may begin where it starts. -/
theorem find_assigns {o : Occurrence} (hn : isIdentifier name = true) (ho : o ∈ Occurrence.find t name) :
    ∃ front span back, t = front ++ (span ++ back) ∧ Opens front.getLast? ∧ Assigns name span ∧
      o.start = front.byteLength ∧ o.stop = (front ++ span).byteLength := by
  have hm : o.span ∈ (Occurrence.find t name).map Occurrence.span := List.mem_map_of_mem ho
  obtain ⟨front, span, back, ht, hopens, hspan, hstart, hstop⟩ := (spread_find hn t).mem hm
  rw [Nat.zero_add] at hstart hstop
  exact ⟨front, span, back, ht, by simpa [lastOr] using hopens, hspan, hstart, hstop⟩

/-- Occurrences are counted from one. -/
theorem find_ids (masked name : Text) :
    (Occurrence.find masked name).map Occurrence.id = List.range' 1 (Occurrence.find masked name).length := by
  refine List.ext_getElem (by simp) fun i h₁ h₂ => ?_
  simp [Occurrence.find, Nat.add_comm]

end Edit

end ConfigScript
