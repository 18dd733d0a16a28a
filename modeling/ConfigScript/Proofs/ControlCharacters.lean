import ConfigScript.Proofs.Elements
import ConfigScript.Proofs.Rendered
/-!
# Control characters of printed values

A printed value has words, signs and quoted texts. Of a text only the pieces between its control characters are quoted,
but the name of a field is quoted as it is. So the control characters of a printed value are those in the names of its
fields (`Value.mem_render_iff`), and it is printed on one line if these have none (`Value.render_controls`).
-/

namespace ConfigScript

open Edit (Word sentinel)
open Token (callText codes_of_namePart)

variable {c : Char} {t run separator : Text} {ts : List Text}

/-! ## Texts -/

theorem Edit.Word.not_mem (h : Word t) (hc : isControl c = true) : c ∉ t := fun hm => by
  rcases h.chars c hm with hpart | rfl | rfl
  · obtain ⟨hlow, hhigh⟩ := codes_of_namePart hpart
    simp only [isControl, Bool.or_eq_true, Bool.and_eq_true, decide_eq_true_eq] at hc
    omega
  · cases hc
  · cases hc

namespace Text

theorem mem_join (hs : c ∉ separator) : c ∈ join separator ts ↔ ∃ t ∈ ts, c ∈ t := by
  induction ts with
  | nil => simp [join]
  | cons t ts ih =>
    cases ts with
    | nil => simp [join_single]
    | cons u ts => simp only [join_cons_cons, List.mem_append, hs, false_or, ih, List.mem_cons, exists_eq_or_imp]

theorem mem_quote (hc : isControl c = true) : c ∈ quote t ↔ c ∈ t := by
  have hne : c ≠ '\x27' := by
    rintro rfl
    cases hc
  have hpiece : ∀ d : Char, c ∈ (if d = '\x27' then [d, d] else [d]) ↔ c = d := fun d => by split <;> simp
  simp [quote, List.mem_flatMap, hpiece, hne]

theorem not_mem_spellControl (hc : isControl c = true) (d : Char) : c ∉ spellControl d := by
  have hopen : c ∉ "char(".toList := not_mem_of_clear rfl hc
  have hclose : c ∉ [')'] := not_mem_of_clear rfl hc
  simp only [spellControl, List.mem_append, not_or]
  exact ⟨⟨hopen, (Edit.word_ofNat d.toNat).not_mem hc⟩, hclose⟩

/-- Without a control character in the run that is open, no part has one. -/
theorem not_mem_spelledParts (hc : isControl c = true) (hrun : c ∉ run) : ∀ p ∈ spelledParts run t, c ∉ p := by
  have hquoted : ∀ {run : Text}, c ∉ run → ∀ p ∈ (if run.isEmpty then [] else [quote run.reverse]), c ∉ p := by
    intro run hrun p hp
    split at hp
    · cases hp
    · rw [List.mem_singleton.1 hp, mem_quote hc, List.mem_reverse]
      exact hrun
  induction t generalizing run with
  | nil => exact hquoted hrun
  | cons d t ih =>
    intro p hp
    rw [spelledParts] at hp
    split at hp
    · rcases List.mem_append.1 hp with hp | hp
      · exact hquoted hrun p hp
      · rcases List.mem_cons.1 hp with rfl | hp
        · exact not_mem_spellControl hc d
        · exact ih List.not_mem_nil p hp
    · next hd =>
      refine ih (fun hm => ?_) p hp
      rcases List.mem_cons.1 hm with rfl | hm
      · exact hd hc
      · exact hrun hm

theorem not_mem_render (hc : isControl c = true) : c ∉ render t := by
  have hcomma : c ∉ ", ".toList := not_mem_of_clear rfl hc
  have hopen : c ∉ ['['] := not_mem_of_clear rfl hc
  have hclose : c ∉ [']'] := not_mem_of_clear rfl hc
  unfold render
  split
  · rw [← List.singleton_append, List.append_assoc, List.mem_append, List.mem_append, mem_join hcomma]
    rintro (hm | ⟨p, hp, hm⟩ | hm)
    · exact hopen hm
    · exact not_mem_spelledParts hc List.not_mem_nil p hp hm
    · exact hclose hm
  · next hclear =>
    rw [mem_quote hc]
    exact not_mem_of_clear (Bool.eq_false_iff.2 hclear) hc

end Text

theorem Matrix.not_mem_render (hc : isControl c = true) (m : Matrix) : c ∉ m.render := by
  have hcomma : c ∉ ", ".toList := not_mem_of_clear rfl hc
  have hsemicolon : c ∉ "; ".toList := not_mem_of_clear rfl hc
  have hsquare : c ∉ ['['] ∧ c ∉ [']'] := ⟨not_mem_of_clear rfl hc, not_mem_of_clear rfl hc⟩
  have hround : c ∉ "zeros(".toList ∧ c ∉ [')'] := ⟨not_mem_of_clear rfl hc, not_mem_of_clear rfl hc⟩
  have hnat : ∀ n, c ∉ Text.ofNat n := fun n => (Edit.word_ofNat n).not_mem hc
  unfold render
  split
  · split
    · exact not_mem_of_clear rfl hc
    · simp only [List.mem_append, hround, hcomma, hnat, or_false, not_false_eq_true]
  · rw [← List.singleton_append, List.append_assoc, List.mem_append, List.mem_append, Text.mem_join hsemicolon]
    rintro (hm | ⟨row, hrow, hm⟩ | hm)
    · exact hsquare.1 hm
    · obtain ⟨r, -, rfl⟩ := List.mem_map.1 hrow
      obtain ⟨t, ht, hm⟩ := (Text.mem_join hcomma).1 hm
      obtain ⟨x, -, rfl⟩ := List.mem_map.1 ht
      exact (Number.word_render x).not_mem hc hm
    · exact hsquare.2 hm

/-! ## Values -/

namespace Value

/-- The character stands in the name of a field, at any depth. -/
def Names (v : Value) (c : Char) : Prop := ∃ fields, struct fields ∈ v.parts ∧ ∃ field ∈ fields, c ∈ field.1

theorem names_cell {items : List Value} : (cell items).Names c ↔ ∃ v ∈ items, v.Names c := by
  simp only [Names, parts, List.mem_cons, reduceCtorEq, false_or, mem_partsList]
  exact ⟨fun ⟨fields, ⟨v, hv, hmem⟩, hc⟩ => ⟨v, hv, fields, hmem, hc⟩,
    fun ⟨v, hv, fields, hmem, hc⟩ => ⟨fields, ⟨v, hv, hmem⟩, hc⟩⟩

theorem names_struct {fields : List (Text × Value)} :
    (struct fields).Names c ↔ ∃ field ∈ fields, c ∈ field.1 ∨ field.2.Names c := by
  simp only [Names, parts, List.mem_cons, struct.injEq, mem_partsFields]
  constructor
  · rintro ⟨inner, rfl | ⟨field, hfield, hmem⟩, entry, hentry, hc⟩
    · exact ⟨entry, hentry, .inl hc⟩
    · exact ⟨field, hfield, .inr ⟨inner, hmem, entry, hentry, hc⟩⟩
  · rintro ⟨field, hfield, hc | ⟨inner, hmem, hc⟩⟩
    · exact ⟨fields, .inl rfl, field, hfield, hc⟩
    · exact ⟨inner, .inr ⟨field, hfield, hmem⟩, hc⟩

mutual

/-- A value is printed with the control characters in the names of its fields. -/
theorem mem_render_iff (hc : isControl c = true) : (v : Value) → (c ∈ v.render ↔ v.Names c)
  | logical b => by
    have hno : c ∉ (logical b).render := by cases b <;> exact not_mem_of_clear rfl hc
    simp [hno, Names, parts]
  | double x => by
    have hword : Word (double x).render := Number.word_render x
    have hno : c ∉ (double x).render := hword.not_mem hc
    simp [hno, Names, parts]
  | text t => by
    have hno : c ∉ (text t).render := Text.not_mem_render hc
    simp [hno, Names, parts]
  | matrix m => by
    have hno : c ∉ (matrix m).render := m.not_mem_render hc
    simp [hno, Names, parts]
  | cell items => by
    have hcomma : c ∉ ", ".toList := not_mem_of_clear rfl hc
    have hcurly : c ∉ ['{'] ∧ c ∉ ['}'] := ⟨not_mem_of_clear rfl hc, not_mem_of_clear rfl hc⟩
    rw [names_cell, ← mem_renderItems_iff hc items, ← Text.mem_join hcomma]
    show c ∈ ['\x7b'] ++ Text.join ", ".toList (renderItems items) ++ ['\x7d'] ↔ _
    simp only [List.mem_append, hcurly, false_or, or_false]
  | struct fields => by
    have hcomma : c ∉ ", ".toList := not_mem_of_clear rfl hc
    have hround : c ∉ "struct(".toList ∧ c ∉ [')'] := ⟨not_mem_of_clear rfl hc, not_mem_of_clear rfl hc⟩
    rw [names_struct, ← mem_renderFields_iff hc fields, ← Text.mem_join hcomma]
    show c ∈ "struct(".toList ++ Text.join ", ".toList (renderFields fields) ++ [')'] ↔ _
    simp only [List.mem_append, hround, false_or, or_false]

theorem mem_renderItems_iff (hc : isControl c = true) :
    (items : List Value) → ((∃ t ∈ renderItems items, c ∈ t) ↔ ∃ v ∈ items, v.Names c)
  | [] => by simp [renderItems]
  | v :: rest => by simp [renderItems, mem_render_iff hc v, mem_renderItems_iff hc rest]

theorem mem_renderFields_iff (hc : isControl c = true) : (fields : List (Text × Value)) →
    ((∃ t ∈ renderFields fields, c ∈ t) ↔ ∃ field ∈ fields, c ∈ field.1 ∨ field.2.Names c)
  | [] => by simp [renderFields]
  | (name, v) :: rest => by
    have hcomma : c ∉ ", ".toList := not_mem_of_clear rfl hc
    simp only [renderFields, List.mem_cons, exists_eq_or_imp, List.mem_append, hcomma, Text.mem_quote hc,
      mem_render_iff hc v, mem_renderFields_iff hc rest, or_false]

end

/-- A value is printed without control characters if the names of its fields have none, and then it is on one line and
the mask takes no character of it for its own. -/
theorem render_controls (v : Value) :
    (v.render.any isControl = true ↔ ∃ c, isControl c = true ∧ v.Names c) ∧
      ('\n' ∈ v.render ↔ v.Names '\n') ∧ (sentinel ∈ v.render ↔ v.Names sentinel) := by
  refine ⟨?_, mem_render_iff (by decide) v, mem_render_iff (by decide) v⟩
  rw [List.any_eq_true]
  constructor
  · rintro ⟨c, hm, hc⟩
    exact ⟨c, hc, (mem_render_iff hc v).1 hm⟩
  · rintro ⟨c, hc, hm⟩
    exact ⟨c, (mem_render_iff hc v).2 hm, hc⟩

end Value

namespace Runner

/-- Any text can become the name of a field. -/
theorem evaluate_struct (name : Text) : Runner.plain.evaluate (callText "struct".toList [name.render, Text.ofNat 1]) =
    .ok (.struct [(name, .double (Number.nearest 1 0))]) := by
  have hs := Surroundings.clear_plain
  have hargs : List.Forall₂ (Denotes ⟨{}, [], []⟩) [name.render, Text.ofNat 1]
      (Value.byTurns [(name, .double (Number.nearest 1 0))]) :=
    .cons (denotes_text hs name) (.cons (Number.denotes_natural 1) .nil)
  exact evaluateUnder_of_denotes (Value.denotes_struct hs hargs (List.pairwise_singleton _ _))

/-- With a line break in the name of a field a value is printed on two lines. -/
theorem render_controls_field : ∃ v, Runner.plain.evaluate "struct(['a', char(10)], 1)".toList = .ok v ∧
    v.render = "struct('a\n', 1)".toList ∧ v.render.any isControl = true ∧ '\n' ∈ v.render := by
  have hrender : (Value.struct [("a\n".toList, .double (Number.nearest 1 0))]).render = "struct('a\n', 1)".toList := by
    decide +kernel
  exact ⟨_, evaluate_struct "a\n".toList, hrender, by rw [hrender]; decide, by rw [hrender]; decide⟩

end Runner

end ConfigScript
