import ConfigScript.Proofs.Boundaries
/-!
# Traced copies in writing

Whatever spans a masked text is traced at, as long as they stand apart in it on boundaries of characters, every
cut at them succeeds, and the traced copy is known from the offsets alone: the line that starts the trace, and
then what stands between the spans with its terminators back, by turns with what appends their ids
(`Separate.instrument_woven`). The occurrences of a variable stand apart like this (`separate_find`).
-/

namespace ConfigScript

namespace Text

variable {front t : Text} {n : Nat}

theorem boundary_iff : Boundary t n ↔ byteLength (takeBytes n t) = n := by
  constructor
  · rintro ⟨front, back, rfl, rfl⟩
    rw [takeBytes_byteLength]
  · intro h
    exact ⟨_, _, (splitAtByte_append n t).symm, h⟩

instance : Decidable (Boundary t n) := decidable_of_iff _ boundary_iff.symm

/-- A boundary that does not lie in front of a place cuts what stands behind it. -/
theorem Boundary.behind (h : Boundary (front ++ t) n) (hn : byteLength front ≤ n) :
    ∃ gap tail, t = gap ++ tail ∧ n = byteLength front + byteLength gap := by
  obtain ⟨upTo, back, hcut, rfl⟩ := h
  rcases List.append_eq_append_iff.1 hcut with ⟨gap, rfl, rfl⟩ | ⟨more, rfl, -⟩
  · exact ⟨gap, back, rfl, byteLength_append front gap⟩
  · obtain rfl : more = [] := by
      by_contra hne
      have hpos := byteLength_pos hne
      rw [byteLength_append] at hn
      omega
    exact ⟨[], t, rfl, by simp [byteLength]⟩

end Text

namespace Edit

variable {t masked front name : Text} {offset : Nat} {o : Occurrence} {os : List Occurrence}

/-- Spans stand apart in a text: their ends are boundaries of it, so they lie within it, and each of them ends
before the next one begins or where it begins. -/
structure Separate (t : Text) (os : List Occurrence) : Prop where
  boundaries : ∀ o ∈ os, t.Boundary o.start ∧ t.Boundary o.stop
  forwards : ∀ o ∈ os, o.start ≤ o.stop
  ordered : os.Pairwise fun o o' => o.stop ≤ o'.start

theorem Separate.tail (h : Separate t (o :: os)) : Separate t os where
  boundaries o' ho' := h.boundaries o' (List.mem_cons_of_mem o ho')
  forwards o' ho' := h.forwards o' (List.mem_cons_of_mem o ho')
  ordered := (List.pairwise_cons.1 h.ordered).2

theorem Separate.laid (h : Separate (front ++ t) os) (hfront : ∀ o ∈ os, front.byteLength ≤ o.start) :
    Laid front.byteLength t os := by
  induction os generalizing front t with
  | nil => exact .done
  | cons o os ih =>
    obtain ⟨hstart, hstop⟩ := h.boundaries o List.mem_cons_self
    obtain ⟨gap, rest, rfl, hgap⟩ := hstart.behind (hfront o List.mem_cons_self)
    rw [← List.append_assoc] at hstop
    have hle : (front ++ gap).byteLength ≤ o.stop := by
      rw [Text.byteLength_append, ← hgap]
      exact h.forwards o List.mem_cons_self
    obtain ⟨span, tail, rfl, hspan⟩ := hstop.behind hle
    have hbehind : o.stop = (front ++ (gap ++ span)).byteLength := by
      rw [hspan, ← List.append_assoc, Text.byteLength_append (front ++ gap)]
    refine .next hgap (by rw [hbehind, Text.byteLength_append]) (hbehind ▸ ih ?_ fun o' ho' => ?_)
    · simpa using h.tail
    · rw [← hbehind]
      exact (List.pairwise_cons.1 h.ordered).1 o' ho'

/-- Spans that lie in the text one behind the other stand apart in it, behind all that is in front. -/
theorem Laid.separate (h : Laid offset t os) (hf : front.byteLength = offset) :
    Separate (front ++ t) os ∧ ∀ o ∈ os, offset ≤ o.start := by
  induction h generalizing front with
  | done => exact ⟨⟨by simp, by simp, .nil⟩, by simp⟩
  | @next offset gap span tail o os hstart hstop _ ih =>
    have hfront : (front ++ gap).byteLength = o.start := by rw [hstart, Text.byteLength_append, hf]
    have hbehind : (front ++ gap ++ span).byteLength = o.stop := by
      rw [hstop, List.append_assoc, Text.byteLength_append, hf]
    have hbounds := Text.boundaries_of_append (front ++ gap) span tail
    obtain ⟨hmore, hafter⟩ := ih hbehind
    rw [List.append_assoc, List.append_assoc] at hmore
    rw [hfront, hbehind, List.append_assoc] at hbounds
    have hfirst : offset ≤ o.start := by omega
    have hforward : o.start ≤ o.stop := by
      rw [← hfront, ← hbehind, Text.byteLength_append (front ++ gap)]
      omega
    refine ⟨⟨?_, ?_, List.pairwise_cons.2 ⟨hafter, hmore.ordered⟩⟩, ?_⟩
    · exact List.forall_mem_cons.2 ⟨hbounds, hmore.boundaries⟩
    · exact List.forall_mem_cons.2 ⟨hforward, hmore.forwards⟩
    · exact List.forall_mem_cons.2 ⟨hfirst, fun o' ho' => (hfirst.trans hforward).trans (hafter o' ho')⟩

/-- Standing apart is lying one behind the other from the start of the text on. -/
theorem separate_iff : Separate masked os ↔ Laid 0 masked os := by
  constructor
  · intro h
    have h : Separate ([] ++ masked) os := h
    exact h.laid fun _ _ => Nat.zero_le _
  · intro h
    have hapart : Separate ([] ++ masked) os ∧ _ := h.separate rfl
    exact hapart.1

/-- The occurrences of a variable stand apart. -/
theorem separate_find (hn : isIdentifier name = true) (masked : Text) : Separate masked (Occurrence.find masked name) :=
  separate_iff.2 (spread_find hn masked).laid

/-! ## What the traced copy is -/

theorem sentinel_not_mem_unmask (t : Text) : sentinel ∉ unmask t := by
  intro h
  obtain ⟨c, -, hc⟩ := List.mem_map.1 h
  split at hc
  · revert hc
    decide
  · contradiction

theorem unmask_woven (t : Text) (offset : Nat) (os : List Occurrence) :
    unmask (woven id t offset os) = woven unmask t offset os := by
  induction os generalizing offset with
  | nil => rfl
  | cons o os ih =>
    rw [woven, woven, unmask_append, unmask_append, unmask_of_not_mem (not_mem_appendId o.id), ih]
    rfl

/-- The traced copy of a text at spans that stand apart in it. All spans are replaced, the last one first, and no
cut fails. -/
theorem Separate.instrument_woven (h : Separate masked os) :
    instrument? masked os = some (instrument masked os) ∧
    instrument masked os = traceName ++ " = [];\n".toList ++ woven unmask masked 0 os ∧
    sentinel ∉ instrument masked os := by
  have hlaid := separate_iff.1 h
  have hwoven : replaceAll ([] ++ masked) os = [] ++ woven id ([] ++ masked) 0 os := hlaid.replaceAll_eq rfl
  rw [List.nil_append, List.nil_append] at hwoven
  have hline : sentinel ∉ traceName ++ " = [];\n".toList := by decide
  refine ⟨hlaid.instrument?_eq, ?_, ?_⟩
  · rw [instrument, hwoven, unmask_woven]
  · rw [instrument, List.mem_append, not_or]
    exact ⟨hline, sentinel_not_mem_unmask _⟩

/-- A text with accented letters and a hidden terminator, traced at two spans without a gap between them and at
an empty one at its end. -/
theorem instrument_woven_accented :
    let masked := "s = 'é\x01'; a = 1;a = 2;é".toList
    let os : List Occurrence := [⟨11, 17, 7⟩, ⟨17, 23, 3⟩, ⟨25, 25, 0⟩]
    Separate masked os ∧ sentinel ∈ masked ∧ instrument? masked os = some (instrument masked os) ∧
      instrument masked os = traceName ++ " = [];\n".toList ++ ("s = 'é;'; ".toList ++ (appendId 7 ++ (appendId 3 ++
        ('é' :: appendId 0)))) ∧
      sentinel ∉ instrument masked os := by
  intro masked os
  have hseparate : Separate masked os := ⟨by decide +kernel, by decide, by decide⟩
  obtain ⟨hcuts, hwoven, hno⟩ := hseparate.instrument_woven
  have hgaps : woven unmask masked 0 os =
      "s = 'é;'; ".toList ++ (appendId 7 ++ (appendId 3 ++ ('é' :: appendId 0))) := by decide +kernel
  exact ⟨hseparate, by decide, hcuts, hgaps ▸ hwoven, hno⟩

end Edit

end ConfigScript
