import ConfigScript.Proofs.Built
import ConfigScript.Proofs.Retraced
import ConfigScript.Proofs.Seams
/-!
# Setting a value again

An edit that has succeeded is made again in the text that it has written. The traced copy of that text is the one of
the text before, at most with another ending (`Seam.instrument`), and so both run alike (`Runner.execute_ending`). What
is bound then has passed the comparison, and passes it again (`compare_again`). So the second edit has the text itself
as its candidate, and no file changes (`setValue_again`).
-/

namespace ConfigScript

/-! ## A blank or a line break at the end -/

namespace Token

variable {s s₁ : Scan} {t u : Text} {c : Char} {l : Lexeme} {transposes : Bool}

/-- No lexeme ends in a blank. -/
theorem Lexed.getLast?_ne (h : Lexed transposes c t l) : l.spelling.getLast? ≠ some ' ' := by
  intro hlast
  have hmem := List.mem_of_getLast? hlast
  cases h with
  | numeral =>
    rcases Edit.numeral_marks _ _ hmem with hd | hm
    · cases hd
    · exact absurd hm (by decide)
  | name => exact absurd (List.mem_takeWhile_imp hmem) (by decide)
  | transpose hc =>
    obtain rfl : ' ' = c := List.mem_singleton.1 hmem
    cases hc
  | string hc hb =>
    have hne : c ≠ '\n' := by
      rintro rfl
      rcases hc with hc | hc <;> cases hc
    obtain ⟨hend, -⟩ := spelling_of_stringBody hne hb
    rw [List.getLast?_cons, hend] at hlast
    obtain rfl : c = ' ' := by simpa using hlast
    rcases hc with hc | hc <;> cases hc
  | pair _ _ ho =>
    obtain rfl : _ = ' ' := by simpa using hlast
    exact absurd (second_of_operator ho) (by decide)
  | single _ ho =>
    obtain rfl : ' ' = c := List.mem_singleton.1 hmem
    cases ho

/-- A comment that goes to the end of a text goes on with a blank, and so does a continuation. -/
theorem restOfLine_blank (h : (restOfLine t).2 = []) : (restOfLine (t ++ [' '])).2 = [] := by
  have happ := restOfLine_append t
  obtain ⟨hno, -⟩ := @restOfLine_eq t (restOfLine t).2 (restOfLine t).1 rfl
  rw [h, List.append_nil] at happ
  rw [happ] at hno
  have hline := @restOfLine_of_break [] (t ++ [' ']) (by simp [hno]) (.inl rfl)
  rw [List.append_nil] at hline
  rw [hline]

theorem continuation_blank (h : (continuation t).2 = []) (hlast : t.getLast? = some ' ') :
    (continuation (t ++ [' '])).2 = [] := by
  have happ := continuation_append t
  rw [h, List.append_nil] at happ
  have hno : '\n' ∉ t := by
    rcases Edit.continuation_end t with ⟨-, hno⟩ | ⟨line, hline, -⟩
    · exact happ ▸ hno
    · rw [← happ, hline, List.getLast?_concat] at hlast
      cases hlast
  have hline := @restOfLine_of_break [] (t ++ [' ']) (by simp [hno]) (.inl rfl)
  rw [List.append_nil] at hline
  rw [continuation, hline]

/-- The last turn of a scan takes one more blank with it, or passes it in another turn. -/
theorem Step.blank_end {rest : Text} (hs : Step s t s₁ rest) (hrest : rest = []) (hlast : t.getLast? = some ' ') :
    ∃ s₂, Run s (t ++ [' ']) s₂ [] ∧ s₂.groups = s₁.groups ∧ s₂.tokens = s₁.tokens := by
  cases hs with
  | blank hc =>
    subst hrest
    exact ⟨_, .cons (.blank hc) (.single (.blank rfl)), rfl, rfl⟩
  | @continued c t hc =>
    have hlast : t.getLast? = some ' ' := by
      obtain ⟨v, hv⟩ := Edit.startsContinuation_iff.1 hc
      obtain ⟨rfl, rfl⟩ := List.cons.inj hv
      simpa [List.getLast?_cons] using hlast
    have hc' : startsContinuation (c :: (t ++ [' '])) = true := Edit.startsContinuation_append_left hc [' ']
    have hstep := Step.continued (s := s) hc'
    rw [continuation_blank hrest hlast] at hstep
    exact ⟨_, .single hstep, rfl, rfl⟩
  | @comment t =>
    have hstep := Step.comment (s := s) (t := t ++ [' '])
    rw [restOfLine_blank hrest] at hstep
    exact ⟨_, .single hstep, rfl, rfl⟩
  | token _ hl _ =>
    have happ := (lexeme_append hl).1
    rw [hrest, List.append_nil] at happ
    exact ((lexed_of_lexeme hl).getLast?_ne (happ ▸ hlast)).elim

/-- A second blank at the end of a text changes no token. -/
theorem Run.blank (h : Run s (u ++ [' ']) s₁ []) :
    ∃ s₂, Run s (u ++ [' ', ' ']) s₂ [] ∧ s₂.groups = s₁.groups ∧ s₂.tokens = s₁.tokens := by
  generalize ht : u ++ [' '] = t at h
  generalize hnil : ([] : Text) = last at h
  induction h generalizing u with
  | nil =>
    subst hnil
    simp at ht
  | @cons s s₂ s₁ t t₂ last hs hr ih =>
    subst hnil
    obtain ⟨v, _, -, hv⟩ := hs.advance
    have htext := hv.text
    rcases List.eq_nil_or_concat t₂ with rfl | ⟨p, d, rfl⟩
    · obtain ⟨rfl, -⟩ := hr.of_nil
      obtain ⟨s₃, hr₃, hend⟩ := hs.blank_end rfl (by rw [← ht, List.getLast?_concat])
      refine ⟨s₃, ?_, hend⟩
      rw [← ht, List.append_assoc] at hr₃
      exact hr₃
    · -- what stands in front of the blank is scanned as before
      rw [List.concat_eq_append] at *
      obtain ⟨rfl, hd⟩ := List.append_inj' (ht.trans (htext.trans (List.append_assoc ..).symm)) rfl
      obtain rfl : ' ' = d := by simpa using hd
      obtain ⟨s₃, hr₃, hend⟩ := ih rfl rfl
      rw [htext] at hs
      refine ⟨s₃, ?_, hend⟩
      rw [List.append_assoc]
      exact .cons (hs.cut .blank .blank fun _ _ _ _ => Scan.separated_congr rfl) hr₃

theorem tokenize_blank {toks : List Token} (h : tokenize t = .ok toks) (hlast : t.getLast? = some ' ') :
    tokenize (t ++ [' ']) = .ok toks := by
  obtain ⟨u, rfl⟩ := List.getLast?_eq_some_iff.1 hlast
  obtain ⟨s₁, hr, hg, rfl⟩ := scan_eq_ok.1 h
  obtain ⟨s₂, hr₂, hg₂, htok⟩ := hr.blank
  rw [List.append_assoc]
  exact scan_eq_ok.2 ⟨s₂, hr₂, hg₂.trans hg, by rw [htok]⟩

end Token

/-- What may stand at the end of a text without a change to what it runs: a line break, or a second blank. -/
inductive Ending (t : Text) : Text → Prop
  | none : Ending t []
  | line : Ending t ['\n']
  | blank : t.getLast? = some ' ' → Ending t [' ']

/-- With such an ending a script binds the same variables. -/
theorem Runner.execute_ending {r : Runner} {script ending : Text} {vars : Workspace} (h : r.execute script = .ok vars)
    (he : Ending script ending) : r.execute (script ++ ending) = .ok vars := by
  cases he with
  | none => rwa [List.append_nil]
  | line =>
    obtain ⟨p, hp, hrun⟩ := execute_eq_ok.1 h
    obtain ⟨toks, ht, hp⟩ := readProgram_eq_ok.1 hp
    obtain ⟨extra, ht', hsep⟩ := tokenize_break ht
    exact execute_eq_ok.2 ⟨p, readProgram_eq_ok.2 ⟨_, ht', Program.ofTokens_append hp hsep⟩, hrun⟩
  | blank hlast =>
    obtain ⟨p, hp, hrun⟩ := execute_eq_ok.1 h
    obtain ⟨toks, ht, hp⟩ := readProgram_eq_ok.1 hp
    exact execute_eq_ok.2 ⟨p, readProgram_eq_ok.2 ⟨_, Token.tokenize_blank ht hlast, hp⟩, hrun⟩

/-! ## The traced copy of the edited script -/

namespace Edit

open Token Mask
open Occurrence (isGap)

variable {name script value e front gap blanks body : Text} {o : Occurrence}

/-- What masked text gets for a line break at the end. -/
theorem Seam.ending (h : Seam name script o front gap blanks body) (he : e = [] ∨ e = ['\n']) :
    Ending (hide (after .start (o.before script)) (script.dropBytes o.stop))
      (hide (after (after .start (o.before script)) (script.dropBytes o.stop)) e) := by
  rcases he with rfl | rfl
  · exact .none
  · rw [hide_break]
    split
    · next hc =>
      rcases getLast?_of_continuation hc with ⟨hm, -⟩ | hlast
      · rw [h.plain.continuation] at hm
        cases hm
      · exact .blank hlast
    · exact .line

theorem unmask_ending {t ending : Text} (h : Ending t ending) : unmask ending = ending := by
  cases h <;> rfl

/-- The traced copy of the edited script is that of the script with another ending, and the occurrence keeps its id. -/
theorem Seam.instrument (hn : isIdentifier name = true) (ho : o ∈ Occurrence.find (Edit.sanitize script) name)
    (h : Seam name script o front gap blanks body) (hv : Enclosed (after .start (o.before script)) value)
    (he : e = [] ∨ e = ['\n']) :
    let edited := o.before script ++ (value ++ ';' :: (script.dropBytes o.stop ++ e))
    let found := Occurrence.find (Edit.sanitize edited) name
    (∃ ending, Ending (Edit.instrument (Edit.sanitize script) (Occurrence.find (Edit.sanitize script) name)) ending ∧
      Edit.instrument (Edit.sanitize edited) found =
        Edit.instrument (Edit.sanitize script) (Occurrence.find (Edit.sanitize script) name) ++ ending) ∧
    found.length = (Occurrence.find (Edit.sanitize script) name).length ∧
    found.find? (·.id = o.id) = some ⟨o.start,
      o.start + (statement name gap (blanks ++ hide (after .start (o.before script)) value)).byteLength, o.id⟩ := by
  intro edited found
  have hparted : Parted (script.dropBytes o.stop) e := parted_of_ends (.inr (by rcases he with rfl | rfl <;> simp))
  have hmasked := h.sanitize hv hparted
  have hending := h.ending he
  generalize hide (after (after .start (o.before script)) (script.dropBytes o.stop)) e = ending at hmasked hending
  have hcases : ending = [] ∨ ending = ['\n'] ∨ ending = [' '] := by
    cases hending <;> simp
  obtain ⟨⟨left, right, hblank, htraced, htraced'⟩, hlen, hfind⟩ :=
    replaceAll_swap hn h.parts (h.parts_enclosed hv) (h.head_enclosed hv) hcases h.masked hmasked ho h.start
  refine ⟨⟨ending, ?_, ?_⟩, hlen, hfind⟩
  · cases hending with
    | none => exact .none
    | line => exact .line
    | blank hlast =>
      obtain ⟨more, rfl⟩ := List.getLast?_eq_some_iff.1 (hblank hlast)
      have hcut : Edit.instrument (Edit.sanitize script) (Occurrence.find (Edit.sanitize script) name) =
          (traceName ++ " = [];\n".toList ++ unmask (left ++ (appendId o.id ++ more))) ++ [' '] := by
        rw [Edit.instrument, htraced]
        simp [unmask, sentinel]
      exact .blank (by rw [hcut, List.getLast?_concat])
  · rw [Edit.instrument, Edit.instrument, htraced, htraced', ← List.append_assoc (appendId o.id), ← List.append_assoc left,
      unmask_append (left ++ (appendId o.id ++ right)), unmask_ending hending, ← List.append_assoc]

/-! ## Room for the trace -/

/-- A word does not go over a character that is no part of words. -/
theorem infix_append_cons {word a b : Text} {c : Char} (hword : ∀ x ∈ word, isNamePart x = true)
    (hc : isNamePart c = false) (h : word <:+: a ++ c :: b) : word <:+: a ∨ word <:+: b := by
  have hmem : c ∉ word := fun hm => by
    rw [hword c hm] at hc
    cases hc
  obtain ⟨s, t, hst⟩ := h
  rcases List.append_eq_append_iff.1 hst with ⟨x, rfl, -⟩ | ⟨x, hx, hback⟩
  · exact .inl ⟨s, x, rfl⟩
  · cases x with
    | nil => exact .inl ⟨s, [], by simpa using hx⟩
    | cons d x =>
      obtain ⟨rfl, rfl⟩ := List.cons.inj hback
      rcases List.append_eq_append_iff.1 hx with ⟨y, -, rfl⟩ | ⟨y, rfl, hy⟩
      · simp at hmem
      · cases y with
        | nil =>
          rw [List.nil_append] at hy
          simp [← hy] at hmem
        | cons f y =>
          obtain ⟨rfl, rfl⟩ := List.cons.inj hy
          exact .inr ⟨y, t, by simp⟩

theorem checkTraceable_append_cons {a b : Text} {c : Char} (hc : isNamePart c = false) (hs : c ≠ sentinel) :
    checkTraceable (a ++ c :: b) = .ok () ↔ checkTraceable a = .ok () ∧ checkTraceable b = .ok () := by
  have hpart : Text.hasPart traceName (a ++ c :: b) = false ↔
      Text.hasPart traceName a = false ∧ Text.hasPart traceName b = false := by
    simp only [Bool.eq_false_iff, ne_eq, Text.hasPart_iff]
    constructor
    · exact fun h => ⟨fun ha => h (ha.trans ⟨[], c :: b, rfl⟩), fun hb => h (hb.trans ⟨a ++ [c], [], by simp⟩)⟩
    · rintro ⟨ha, hb⟩ h
      exact (infix_append_cons (List.all_eq_true.1 rfl) hc h).elim ha hb
  simp only [checkTraceable_eq_ok, hpart, List.mem_append, List.mem_cons]
  have hs := hs.symm
  tauto

theorem checkTraceable_of_append {a b : Text} (h : checkTraceable (a ++ b) = .ok ()) : checkTraceable b = .ok () := by
  rw [checkTraceable_eq_ok] at h ⊢
  refine ⟨fun hm => h.1 (List.mem_append_right a hm), Bool.eq_false_iff.2 fun hp => ?_⟩
  have hno := Bool.eq_false_iff.1 h.2
  exact hno (Text.hasPart_iff.2 ((Text.hasPart_iff.1 hp).trans ⟨a, [], by simp⟩))

/-- Blanks in front leave room. -/
theorem checkTraceable_gaps {blanks t : Text} (hb : ∀ c ∈ blanks, isGap c = true) (h : checkTraceable t = .ok ()) :
    checkTraceable (blanks ++ t) = .ok () := by
  induction blanks with
  | nil => exact h
  | cons c blanks ih =>
    have hc : isNamePart c = false ∧ c ≠ sentinel := by
      rcases Occurrence.isGap_iff.1 (hb c List.mem_cons_self) with rfl | rfl <;> decide
    exact (checkTraceable_append_cons (a := []) hc.1 hc.2).2 ⟨rfl, ih fun d hd => hb d (List.mem_cons_of_mem c hd)⟩

/-- A script and a value that leave room for the trace leave room together. -/
theorem Seam.traceable (h : Seam name script o front gap blanks body) (hscript : checkTraceable script = .ok ())
    (hvalue : checkTraceable value = .ok ()) (he : e = [] ∨ e = ['\n']) :
    checkTraceable (o.before script ++ (value ++ ';' :: (script.dropBytes o.stop ++ e))) = .ok () := by
  obtain ⟨head, word, hbefore, -, -⟩ := h.before
  obtain ⟨right, hcut⟩ := h.cut
  have htail : checkTraceable (script.dropBytes o.stop) = .ok () := by
    rw [hcut] at hscript
    exact checkTraceable_of_append (checkTraceable_of_append hscript)
  have hfront : checkTraceable (head ++ word) = .ok () := by
    have hall : script = (head ++ word) ++ '=' :: (blanks ++ (right ++ script.dropBytes o.stop)) := by
      have happ := hcut
      rw [hbefore] at happ
      simpa using happ
    rw [hall] at hscript
    exact ((checkTraceable_append_cons (by decide) (by decide)).1 hscript).1
  have hend : checkTraceable (script.dropBytes o.stop ++ e) = .ok () := by
    rcases he with rfl | rfl
    · rwa [List.append_nil]
    · exact (checkTraceable_append_cons (by decide) (by decide)).2 ⟨htail, rfl⟩
  have hback := checkTraceable_gaps h.gaps ((checkTraceable_append_cons (c := ';') (by decide) (by decide)).2 ⟨hvalue, hend⟩)
  have hall := (checkTraceable_append_cons (c := '=') (by decide) (by decide)).2 ⟨hfront, hback⟩
  rw [hbefore]
  simpa using hall

/-! ## The edited script, edited again -/

/-- The comparison that an edit has passed is passed by what is bound then, too. -/
theorem compare_again {before after : Workspace} {expected : Value} (hs : after.Sorted)
    (h : compare before after name expected = .ok ()) : compare after after name expected = .ok () := by
  obtain ⟨hedited, -⟩ := compare_eq_ok_iff_mem.1 h
  exact (compare_eq_ok_iff hs).2 ⟨hedited, fun n old _ hold => ⟨old, hold, Value.equivalent_refl old⟩⟩

end Edit

namespace Text

theorem endLastLine_eq_append (t : Text) : ∃ e, (e = [] ∨ e = ['\n']) ∧ t.endLastLine = t ++ e := by
  unfold endLastLine
  split
  · exact ⟨[], .inl rfl, (List.append_nil t).symm⟩
  · exact ⟨['\n'], .inr rfl, rfl⟩

theorem endLastLine_endLastLine (t : Text) : t.endLastLine.endLastLine = t.endLastLine := by
  unfold endLastLine
  split
  · rfl
  · simp

end Text

namespace Editor

variable {σ : Type} {settings : Settings} {process : Table Text} {r : Runner} {path name value : Text} {w w' w₀ : World σ}
  {file : ScriptFile} {o : Edit.Occurrence} {v : Verified}

/-- Locating with a runner tells which occurrence an edit of the same file replaces. -/
theorem live_of_locate {a : LiveAssignment} (hp : prepare r.engine path name value w = .ok (file, v) w')
    (hl : locate r.engine path name w = .ok a w₀) : a.live = v.live := by
  obtain ⟨-, hread, -, -, hv⟩ := prepare_run_ok.1 hp
  obtain ⟨run, _, _, _, _, _, _, hrun, hlive, -⟩ := verify_run_ok.1 hv
  obtain ⟨-, file', live, hread', -, -, hresolve, rfl⟩ := locate_run_ok.1 hl
  rw [hread] at hread'
  cases hread'
  obtain ⟨run', hrun', hlive'⟩ := resolveLive_run_ok.1 hresolve
  rw [hrun] at hrun'
  cases hrun'
  rw [hlive] at hlive'
  exact (Except.ok.inj hlive').symm

open Edit Mask in
/-- The text that an edit has written is prepared for the same edit, with the text itself as the candidate. -/
theorem prepare_again {front gap blanks body : Text} (hr : Runner.ofSettings settings process = .ok r)
    (hp : prepare r.engine path name value w = .ok (file, v) w')
    (ho : (Occurrence.find (sanitize file.content) name).find? (·.id = v.live) = some o)
    (hs : Seam name file.content o front gap blanks body)
    (hv : Enclosed (after .start (o.before file.content)) value) (hn : normalize value = value)
    (htrace : checkTraceable value = .ok ())
    (hread : ScriptFile.read w₀.files path = .ok ⟨path, v.candidate.endLastLine⟩) :
    prepare r.engine path name value w₀ =
      .ok (⟨path, v.candidate.endLastLine⟩, ⟨v.live, v.value, v.candidate.endLastLine⟩) w₀ := by
  obtain ⟨hname, -, htraceable, -, hverify⟩ := prepare_run_ok.1 hp
  obtain ⟨run, _, _, before, _, o', after, hrun, hlive, hvalue, -, ho', hcand, hafter, hcmp⟩ := verify_run_ok.1 hverify
  have hrun : r.execute _ = .ok run := congrArg Prod.fst hrun
  have hvalue : r.evaluate _ = .ok v.value := congrArg Prod.fst hvalue
  have hafter : r.execute v.candidate = .ok after := congrArg Prod.fst hafter
  obtain rfl : o = o' := Option.some.inj (ho.symm.trans ho')
  -- the written text is the candidate with its last line ended
  have hid : o.id = v.live := by simpa using List.find?_some ho
  obtain ⟨e, he, hedited⟩ := v.candidate.endLastLine_eq_append
  have hwritten := Runner.execute_endLastLine hafter
  rw [hedited, hcand, splice_eq, hn, List.append_assoc, List.append_assoc, List.cons_append] at hread hwritten ⊢
  obtain ⟨⟨ending, hending, htraced⟩, hlen, hfind⟩ :=
    hs.instrument hname (List.mem_of_find?_eq_some ho) hv he
  have hagain := hs.splice hv (file.content.dropBytes o.stop ++ e) value
  rw [hn] at hagain
  -- the gates of the second edit, one after the other; its run of the unchanged script is that of the candidate
  refine prepare_run_ok.2 ⟨hname, hread, hs.traceable htraceable htrace he, ?_, ?_⟩
  · intro hnil
    rw [hnil] at hfind
    cases hfind
  · refine verify_run_ok.2 ⟨run, w₀, w₀, after, w₀, _, after, ?_, hlen ▸ hlive, Prod.ext hvalue rfl,
      Prod.ext hwritten rfl, hid ▸ hfind, hagain.symm, Prod.ext hwritten rfl,
      compare_again (Runner.execute_sorted hr hafter) hcmp⟩
    rw [htraced]
    exact Prod.ext (Runner.execute_ending hrun hending) rfl

open Edit in
/-- What evaluation takes as a printed value has no line break. -/
theorem not_mem_of_evaluate {x u : Value} (h : r.evaluate x.render = .ok u) : '\n' ∉ x.render := by
  obtain ⟨e, he, -⟩ := Runner.evaluateUnder_eq_ok.1 h
  obtain ⟨toks, htok, -⟩ := Runner.readExpr_eq_ok.1 he
  exact (x.printed_render false).not_mem_of_tokenize htok

open Edit Mask in
/-- Setting a variable to a printed value again changes nothing, if the value leaves room for the trace, the mask
shows the script with the old value left out as it shows it with it, and it shows no semicolon of the new value, as
where no more brackets are closed in front of it on its line than are opened. -/
theorem setValue_again {x : Value} {backUp : Bool} {b : Option Backup} {a : LiveAssignment}
    (hr : Runner.ofSettings settings process = .ok r) (h : setValue r.engine path name x.render backUp w = .ok b w')
    (hread : ScriptFile.read w.files path = .ok file) (hlocate : locate r.engine path name w = .ok a w₀)
    (ho : (Occurrence.find (sanitize file.content) name).find? (·.id = a.live) = some o)
    (htrace : checkTraceable x.render = .ok ()) (hseam : Seamless file.content o)
    (hdepth : (after .start (o.before file.content)).depth = 0 ∨
      ';' ∉ hide (after .start (o.before file.content)) x.render) :
    setValue r.engine path name x.render false w' = .ok none w' := by
  obtain ⟨file', v, w₁, l, saved, hp, hl, hsaved, rfl⟩ := (setValue_run_ok r.engine_keepsFiles).1 h
  obtain ⟨hname, hread', -, -, hverify⟩ := prepare_run_ok.1 hp
  obtain rfl : file = file' := Except.ok.inj (hread.symm.trans hread')
  rw [live_of_locate hp hlocate] at ho
  obtain ⟨front, gap, blanks, body, hs⟩ := exists_seam hname (List.mem_of_find?_eq_some ho) hseam
  have hprinted := x.printed_render false
  have hline : '\n' ∉ x.render := by
    obtain ⟨_, _, _, _, _, _, _, -, -, hvalue, -⟩ := verify_run_ok.1 hverify
    rw [hprinted.normalize] at hvalue
    exact not_mem_of_evaluate (congrArg Prod.fst hvalue)
  have hsemicolon : ';' ∉ hide (after .start (o.before file.content)) x.render :=
    hdepth.elim (hprinted.not_mem_hide hs.plain · hline) id
  have hv := hprinted.enclosed hs.plain hline hsemicolon
  -- the file as it is written, before and after
  have hat : ScriptFile.At (saved.put l (.file (ScriptFile.encode v.candidate.endLastLine))) path l
      v.candidate.endLastLine := FileSystem.find_put_self (hsaved.at hl) _
  refine (setValue_run_ok r.engine_keepsFiles).2 ⟨_, _, _, l, _, prepare_again hr hp ho hs hv hprinted.normalize htrace
    (ScriptFile.read_of_at hat), hat, .skipped, ?_⟩
  rw [Text.endLastLine_endLastLine, FileSystem.put_put]

set_option maxRecDepth 10000 in
/-- The old value has brackets, and both semicolons of the strings are in quotes. -/
theorem setValue_again_text :
    let w : World Unit := ⟨FileSystem.single "s.m" "a = [1; 2]; b = 'c;';", ()⟩
    let text := (Value.text "x;y".toList).render
    ∃ b w', setValue Runner.plain.engine "/s.m".toList "a".toList text true w = .ok b w' ∧
      setValue Runner.plain.engine "/s.m".toList "a".toList text false w' = .ok none w' := by
  intro w text
  have hset : succeeded (setValue Runner.plain.engine "/s.m".toList "a".toList text true w) = true := by decide +kernel
  have hlocated : (outcome? (locate Runner.plain.engine "/s.m".toList "a".toList w)).map (·.live) = some 1 := by
    decide +kernel
  have hcontent : (ScriptFile.read w.files "/s.m".toList).toOption.map (·.content) =
      some "a = [1; 2]; b = 'c;';".toList := by
    decide +kernel
  obtain ⟨b, w', hset⟩ := exists_of_succeeded hset
  obtain ⟨file, _, _, hp, -⟩ := read_of_setValue hset
  have hread := (prepare_run_ok.1 hp).2.1
  rw [hread] at hcontent
  have hcontent : file.content = _ := Option.some.inj hcontent
  cases hl : locate Runner.plain.engine "/s.m".toList "a".toList w with
  | error e w₀ =>
    rw [hl] at hlocated
    cases hlocated
  | ok a w₀ =>
    rw [hl] at hlocated
    have hlive : a.live = 1 := Option.some.inj hlocated
    refine ⟨b, w', hset, @setValue_again Unit {} [] _ _ _ w w' w₀ file ⟨0, 11, 1⟩ _ _ _ _ rfl hset hread hl ?_ ?_ ?_ ?_⟩
    · rw [hcontent, hlive]
      decide +kernel
    · rfl
    · rw [hcontent]
      decide +kernel
    · rw [hcontent]
      exact .inl (by decide +kernel)

/-- Whether the value of an expression can be set, but not again. -/
def setsOnce (script source : String) : Bool :=
  let w : World Unit := ⟨FileSystem.single "s.m" script, ()⟩
  match Runner.plain.evaluate source.toList with
  | .ok x =>
    match setValue Runner.plain.engine "/s.m".toList "a".toList x.render false w with
    | .ok _ w' => !succeeded (setValue Runner.plain.engine "/s.m".toList "a".toList x.render false w')
    | .error .. => false
  | .error _ => false

/-- The value of an expression is set, and setting it again fails. -/
def SetsOnce (script source : String) : Prop :=
  let w : World Unit := ⟨FileSystem.single "s.m" script, ()⟩
  ∃ x b w' e w'', Runner.plain.evaluate source.toList = .ok x ∧
    setValue Runner.plain.engine "/s.m".toList "a".toList x.render false w = .ok b w' ∧
    setValue Runner.plain.engine "/s.m".toList "a".toList x.render false w' = .error e w''

theorem setsOnce_of_true {script source : String} (h : setsOnce script source = true) : SetsOnce script source := by
  unfold setsOnce at h
  dsimp only at h
  split at h
  · next x hx =>
    split at h
    · next b w' hset =>
      obtain ⟨e, w'', hagain⟩ := exists_of_failed (Bool.not_eq_true' _ ▸ h)
      exact ⟨x, b, w', e, w'', hx, hset, hagain⟩
    · cases h
  · cases h

set_option maxRecDepth 10000 in
/-- The name of the trace in a string, an old value whose transpose closes a string for the mask, and a bracket
closed in front of a matrix: each is set, and not again. -/
theorem setValue_again_fails :
    SetsOnce "a = 1;\n" "'cfgedit_trace__'" ∧ SetsOnce "c = 1; b = c'; a = c';\n" "5" ∧
      SetsOnce "x = [1\n2]; a = 1;\n" "[3; 4]" := by
  refine ⟨setsOnce_of_true ?_, setsOnce_of_true ?_, setsOnce_of_true ?_⟩
  · decide +kernel
  · decide +kernel
  · decide +kernel

end Editor

end ConfigScript
