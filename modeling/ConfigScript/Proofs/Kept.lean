import ConfigScript.Proofs.Edits
import ConfigScript.Proofs.Occurrences
import ConfigScript.Proofs.Splices
/-!
# What an edit keeps of the text

Occurrences are found in masked text and replaced in the script itself. An occurrence begins with its
name and has an equals sign there too (`find_eq_append`), so an edit keeps the name, everything up to
the first equals sign and the blanks behind it, and what stands in front of the occurrence and behind
it. With an engine whose answers are always the same, locating reports the occurrence that an edit
replaces (`setValue_written`).
-/

namespace ConfigScript

/-- The answers of an engine depend on nothing but what it is asked. -/
structure Engine.Deterministic {σ : Type} (engine : Engine σ) : Prop where
  execute : ∀ script w w', (engine.execute script w).1 = (engine.execute script w').1
  evaluate : ∀ source w w', (engine.evaluate source w).1 = (engine.evaluate source w').1

theorem Runner.engine_deterministic {σ : Type} (r : Runner) : (r.engine : Engine σ).Deterministic :=
  ⟨fun _ _ _ => rfl, fun _ _ _ => rfl⟩

namespace Edit

open Mask
open Occurrence (isGap)

variable {name script : Text} {o : Occurrence}

/-- Masking leaves the characters of a name. -/
theorem shown_of_identifier (h : isIdentifier name = true) :
    name ≠ [] ∧ ∀ c ∈ name, c ≠ '=' ∧ c ≠ ' ' ∧ c ≠ sentinel := by
  refine ⟨?_, fun c hc => ?_⟩
  · rintro rfl
    cases h
  · have hpart := namePart_of_identifier h c hc
    refine ⟨?_, ?_, ?_⟩ <;> (rintro rfl; cases hpart)

/-- Where the masked script has an occurrence, the script has the name and an equals sign behind it. -/
theorem find_eq_append (hn : isIdentifier name = true) (ho : o ∈ Occurrence.find (sanitize script) name) :
    ∃ head more tail, script = head ++ ((name ++ more) ++ tail) ∧ '=' ∈ more ∧
      o.start = Text.byteLength head ∧ o.stop = Text.byteLength (head ++ (name ++ more)) := by
  obtain ⟨hne, hshown⟩ := shown_of_identifier hn
  obtain ⟨front, _, back, hmasked, -, @⟨gap, body, -, -⟩, hstart, hstop⟩ := find_assigns hn ho
  -- the name, the equals sign and the semicolon are shown, one behind the other
  have hname : sanitize script = front ++ (name ++ (gap ++ '=' :: (body ++ ';' :: back))) := by
    simpa using hmasked
  obtain ⟨head, t, _, rfl, hhead, hfits, happ⟩ :=
    apply_eq_append (fits_scan .start script) hname hne fun c hc => (hshown c hc).2
  obtain ⟨gap', t, _, rfl, hgap, hfits, happ⟩ := apply_eq_append_cons hfits happ (by decide) (by decide)
  obtain ⟨body', t, _, rfl, hbody, -, -⟩ := apply_eq_append_cons hfits happ (by decide) (by decide)
  refine ⟨head, gap' ++ '=' :: (body' ++ [';']), t, by simp, by simp, ?_, ?_⟩
  · rw [hhead, hstart]
  · refine hstop.trans ?_
    simp only [Text.byteLength_append, Text.byteLength, hhead, hgap, hbody]

/-- The text of an assignment, cut behind its first equals sign and the blanks there. -/
structure LeftSide (name left right : Text) : Prop where
  spelled : ∃ gap blanks, left = name ++ (gap ++ '=' :: blanks) ∧ '=' ∉ name ++ gap ∧
    ∀ c ∈ blanks, isGap c = true
  ends : ∀ c ∈ right.head?, isGap c = false

/-- How an occurrence cuts its script, and what of it stays when its value is replaced. -/
theorem splice_eq_append (hn : isIdentifier name = true) (ho : o ∈ Occurrence.find (sanitize script) name) :
    ∃ head left right tail, script = head ++ (left ++ (right ++ tail)) ∧
      o.start = Text.byteLength head ∧ o.stop = Text.byteLength (head ++ (left ++ right)) ∧
      LeftSide name left right ∧
      ∀ value, splice script o value = head ++ (left ++ (normalize value ++ ';' :: tail)) := by
  obtain ⟨head, more, tail, rfl, hsign, hstart, hstop⟩ := find_eq_append hn ho
  obtain ⟨gap, t, rfl, hgap⟩ := List.eq_append_cons_of_mem hsign
  have hfirst : '=' ∉ name ++ gap := by
    rw [List.mem_append, not_or]
    exact ⟨fun hm => ((shown_of_identifier hn).2 _ hm).1 rfl, hgap⟩
  have hcut : name ++ (gap ++ '=' :: t) =
      name ++ (gap ++ '=' :: t.takeWhile isGap) ++ t.dropWhile isGap := by
    simp
  refine ⟨head, name ++ (gap ++ '=' :: t.takeWhile isGap), t.dropWhile isGap, tail, ?_, hstart, ?_,
    ⟨⟨gap, _, rfl, hfirst, fun c hc => List.mem_takeWhile_imp hc⟩, fun c hc => ?_⟩, fun value => ?_⟩
  · rw [hcut, List.append_assoc _ (t.dropWhile isGap)]
  · rw [hstop, ← hcut]
  · have hnot := List.head?_dropWhile_not isGap t
    rwa [Option.mem_def.1 hc] at hnot
  · have hfront := Text.takeBytes_byteLength head ((name ++ (gap ++ '=' :: t)) ++ tail)
    have hspan := Text.slice_byteLength head (name ++ (gap ++ '=' :: t)) tail
    have hback := Text.dropBytes_byteLength (head ++ (name ++ (gap ++ '=' :: t))) tail
    rw [List.append_assoc head] at hback
    rw [← Text.byteLength_append, ← hstop, ← hstart] at hspan
    rw [← hstart] at hfront
    rw [← hstop] at hback
    have hleft : leftSide (name ++ (gap ++ '=' :: t)) = name ++ (gap ++ '=' :: t.takeWhile isGap) := by
      have h := leftSide_append hfirst t
      rwa [List.append_assoc, List.append_assoc] at h
    rw [splice, Occurrence.text, hfront, hspan, hback, hleft]
    simp

end Edit

namespace Editor

variable {σ : Type} {engine : Engine σ} {path name value : Text} {backUp : Bool} {b : Option Backup}
  {w w' : World σ}

/-- An edit that succeeds writes its candidate, whatever the engine has done to the files. -/
theorem read_of_setValue (h : setValue engine path name value backUp w = .ok b w') :
    ∃ file v w₁, prepare engine path name value w = .ok (file, v) w₁ ∧
      ScriptFile.read w'.files path = .ok ⟨path, v.candidate.endLastLine⟩ := by
  unfold setValue at h
  rw [bind_run_ok] at h
  obtain ⟨⟨file, v⟩, w₁, hp, h⟩ := h
  obtain ⟨hpath, -⟩ := ScriptFile.read_eq_ok.1 (prepare_run_ok.1 hp).2.1
  refine ⟨file, v, w₁, hp, ?_⟩
  have hcommit : ∃ w₂, commit file v w₂ = .ok () w' := by
    cases backUp with
    | true =>
      simp only [if_true] at h
      obtain ⟨_, w₂, -, h⟩ := bind_run_ok.1 h
      obtain ⟨_, _, hc, h⟩ := bind_run_ok.1 h
      cases h
      exact ⟨w₂, hc⟩
    | false =>
      simp only [Bool.false_eq_true, if_false] at h
      obtain ⟨_, _, hc, h⟩ := bind_run_ok.1 h
      cases h
      exact ⟨w₁, hc⟩
  obtain ⟨w₂, hc⟩ := hcommit
  obtain ⟨files, hf, rfl⟩ := onFiles_run_ok.1 hc
  obtain ⟨after, hw, hf⟩ := bind_eq_ok.1 hf
  cases hf
  exact hpath ▸ ScriptFile.read_of_write hw

/-- An edit that succeeds keeps the text but for the right side of one occurrence, the live one that
locating reports in whatever state of the engine. Behind its first equals sign and the blanks there
this occurrence becomes the new value and a semicolon, and the last line is ended. -/
theorem setValue_written (he : engine.Deterministic)
    (h : setValue engine path name value backUp w = .ok b w') :
    ∃ file a o head left right tail, ScriptFile.read w.files path = .ok file ∧
      (∀ u : World σ, u.files = w.files → ∃ u', locate engine path name u = .ok a u') ∧
      a.occurrence? = some o ∧
      file.content = head ++ (left ++ (right ++ tail)) ∧
      o.start = Text.byteLength head ∧ o.stop = Text.byteLength (head ++ (left ++ right)) ∧
      Edit.LeftSide name left right ∧
      ScriptFile.read w'.files path =
        .ok ⟨path, (head ++ (left ++ (Edit.normalize value ++ ';' :: tail))).endLastLine⟩ := by
  obtain ⟨file, v, w₁, hp, hwritten⟩ := read_of_setValue h
  obtain ⟨hname, hread, htrace, hfind, hv⟩ := prepare_run_ok.1 hp
  obtain ⟨run, w₂, w₃, before, w₄, o, after, hrun, hlive, -, -, ho, hcand, -, -⟩ := verify_run_ok.1 hv
  obtain ⟨head, left, right, tail, hcut, hstart, hstop, hleft, hsplice⟩ :=
    Edit.splice_eq_append hname (List.mem_of_find?_eq_some ho)
  have hlocate : ∀ u : World σ, u.files = w.files → ∃ u', locate engine path name u = .ok ⟨name,
      (Edit.Occurrence.find (Edit.sanitize file.content) name).map (located file.content), v.live⟩ u' := by
    intro u hu
    -- the traced run tells the same as in the edit
    have hrun' := (he.execute _ u w).trans (congrArg Prod.fst hrun)
    exact ⟨(engine.execute _ u).2, locate_run_ok.2 ⟨hname, file, v.live, by rw [hu, hread], htrace, hfind,
      resolveLive_run_ok.2 ⟨run, Prod.ext hrun' rfl, hlive⟩, rfl⟩⟩
  refine ⟨file, _, located file.content o, head, left, right, tail, hread, hlocate, ?_, hcut, hstart, hstop,
    hleft, ?_⟩
  · rw [LiveAssignment.occurrence?, List.find?_map]
    exact congrArg (Option.map _) ho
  · rw [hwritten, hcand, hsplice]

set_option maxRecDepth 10000 in
/-- The second assignment is live. The comment with its two-byte letter and the carriage return are kept. -/
theorem setValue_written_second :
    let w : World Unit := ⟨FileSystem.single "s.m" "a = 1; % ü\r\na =\t 2;", ()⟩
    ∃ b w' file a o head left right tail,
      setValue Runner.plain.engine "/s.m".toList "a".toList " 5; ".toList false w = .ok b w' ∧
      ScriptFile.read w.files "/s.m".toList = .ok file ∧
      (∀ u : World Unit, u.files = w.files →
        ∃ u', locate Runner.plain.engine "/s.m".toList "a".toList u = .ok a u') ∧
      a.occurrence? = some o ∧
      file.content = head ++ (left ++ (right ++ tail)) ∧
      o.start = Text.byteLength head ∧ o.stop = Text.byteLength (head ++ (left ++ right)) ∧
      Edit.LeftSide "a".toList left right ∧
      ScriptFile.read w'.files "/s.m".toList =
        .ok ⟨"/s.m".toList, (head ++ (left ++ (Edit.normalize " 5; ".toList ++ ';' :: tail))).endLastLine⟩ := by
  intro w
  have hs : succeeded (setValue Runner.plain.engine "/s.m".toList "a".toList " 5; ".toList false w) = true := by
    decide +kernel
  obtain ⟨b, w', hset⟩ := exists_of_succeeded hs
  obtain ⟨file, a, o, head, left, right, tail, hwritten⟩ := setValue_written Runner.plain.engine_deterministic hset
  exact ⟨b, w', file, a, o, head, left, right, tail, hset, hwritten⟩

end Editor

end ConfigScript
