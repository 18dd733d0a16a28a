import ConfigScript.Proofs.Files
import ConfigScript.Proofs.MaskStates
/-!
# The mask over bytes

A mask can also be made in one pass over the bytes of a script, which looks back for the dots in front of
a third one (`MaskPass.step`). Only ASCII characters move the state, and the bytes of all others are above
ASCII and get one mark. So the pass gives every byte the mark that the scan gives its character
(`markBytes_utf8`): what it masks is the masked text, byte for byte, and so no byte is left without the
others of its character (`utf8_sanitize`).
-/

namespace ConfigScript

namespace Edit

open Token Mask

/-- The bytes of a text. -/
def utf8 (t : Text) : List UInt8 := t.flatMap String.utf8EncodeChar

/-- What the pass knows behind some bytes: its state, and these bytes with their marks, the latest first. -/
structure MaskPass where
  state : State
  passed : List (UInt8 × Mark)

namespace MaskPass

/-- The last two bytes are dots. -/
def behindDots (passed : List (UInt8 × Mark)) : Bool := (passed.take 2).map Prod.fst = [0x2E, 0x2E]

/-- A byte of a continuation. -/
def blanked (x : UInt8 × Mark) : UInt8 × Mark := (x.1, ⟨x.2.protect, true⟩)

/-- One byte further. Two dots and a third one in code begin a continuation and belong to it. -/
def step (p : MaskPass) (b : UInt8) : MaskPass :=
  let c := Char.ofUInt8 b
  let state := p.state.next c
  let passed := (b, p.state.mark c) :: p.passed
  if c = '.' && state.code && behindDots p.passed then
    ⟨state.continued, (passed.take 3).map blanked ++ passed.drop 3⟩
  else ⟨state, passed⟩

end MaskPass

/-- Bytes with their marks, in one pass. -/
def markBytes (bytes : List UInt8) : List (UInt8 × Mark) := (bytes.foldl MaskPass.step ⟨.start, []⟩).passed.reverse

/-- A byte as the mask leaves it. -/
def maskByte (x : UInt8 × Mark) : UInt8 :=
  if x.2.blank then 0x20 else if x.2.protect then 0x01 else x.1

/-- A byte as masking and unmasking leave it. -/
def blankByte (x : UInt8 × Mark) : UInt8 := if x.2.blank then 0x20 else x.1

variable {m : State} {t u : Text} {c : Char} {mark : Mark} {passed : List (UInt8 × Mark)} {b : UInt8}

/-! ## Texts as bytes -/

theorem encode_eq (t : Text) : ScriptFile.encode t = (utf8 t).toByteArray := by
  rw [ScriptFile.encode, String.toUTF8_eq_toByteArray, String.toByteArray_ofList]
  rfl

theorem utf8_cons (c : Char) (t : Text) : utf8 (c :: t) = String.utf8EncodeChar c ++ utf8 t := rfl

theorem utf8_append (t u : Text) : utf8 (t ++ u) = utf8 t ++ utf8 u := List.flatMap_append

theorem length_utf8 (t : Text) : (utf8 t).length = Text.byteLength t := by
  induction t with
  | nil => rfl
  | cons c t ih => rw [utf8_cons, List.length_append, ih, String.length_utf8EncodeChar, Text.byteLength]

theorem high_ofNat {n : Nat} (h : 128 ≤ n) (h' : n < 256) : (0x80 : UInt8) ≤ UInt8.ofNat n := by
  rw [UInt8.le_iff_toNat_le, UInt8.toNat_ofNat']
  show 128 ≤ n % 256
  omega

/-- An ASCII character is its one byte, and the bytes of all others are above ASCII. -/
theorem utf8EncodeChar_cases (c : Char) :
    (∃ b : UInt8, String.utf8EncodeChar c = [b] ∧ Char.ofUInt8 b = c) ∨
      (127 < c.toNat ∧ ∀ b ∈ String.utf8EncodeChar c, 0x80 ≤ b) := by
  have hval : c.val.toNat = c.toNat := rfl
  rw [String.utf8EncodeChar.eq_1, hval]
  by_cases hc : c.toNat ≤ 127
  · refine .inl ⟨UInt8.ofNat c.toNat, if_pos hc, Char.ext (UInt32.toNat_inj.1 ?_)⟩
    show (UInt8.ofNat c.toNat).toUInt32.toNat = c.val.toNat
    rw [UInt8.toNat_toUInt32, UInt8.toNat_ofNat']
    omega
  · have hmax : c.toNat < 0x110000 := by
      rcases c.valid with h | h
      · exact Nat.lt_trans h (by decide)
      · exact h.2
    refine .inr ⟨Nat.lt_of_not_le hc, ?_⟩
    rw [if_neg hc]
    split
    · simp only [List.forall_mem_cons]
      exact ⟨high_ofNat (by omega) (by omega), high_ofNat (by omega) (by omega), nofun⟩
    split
    · simp only [List.forall_mem_cons]
      exact ⟨high_ofNat (by omega) (by omega), high_ofNat (by omega) (by omega),
        high_ofNat (by omega) (by omega), nofun⟩
    · simp only [List.forall_mem_cons]
      exact ⟨high_ofNat (by omega) (by omega), high_ofNat (by omega) (by omega),
        high_ofNat (by omega) (by omega), high_ofNat (by omega) (by omega), nofun⟩

/-- An ASCII byte stands for its own character only. -/
theorem eq_of_mem_utf8EncodeChar (hb : b < 0x80) (h : b ∈ String.utf8EncodeChar c) : c = Char.ofUInt8 b := by
  rcases utf8EncodeChar_cases c with ⟨d, hd, rfl⟩ | ⟨-, hhigh⟩
  · rw [hd, List.mem_singleton] at h
    rw [h]
  · exact absurd (hhigh b h) (UInt8.not_le.2 hb)

theorem utf8EncodeChar_ne_nil (c : Char) : String.utf8EncodeChar c ≠ [] := by
  refine List.ne_nil_of_length_pos ?_
  rw [String.length_utf8EncodeChar]
  exact c.utf8Size_pos

/-- A character that the mask looks for is ASCII. -/
theorem not_sign_of_high (hc : 127 < c.toNat) : c ∉ signs ∧ c ≠ ';' ∧ c ≠ '.' := by
  have hlow : ∀ d ∈ '.' :: signs, ¬ 127 < d.toNat := by simp [signs, stopSigns]
  refine ⟨fun h => hlow c (List.mem_cons_of_mem _ h) hc, ?_, ?_⟩ <;> rintro rfl
  · exact hlow ';' (by decide) hc
  · exact hlow '.' (by decide) hc

theorem high_ofUInt8 (h : 0x80 ≤ b) : 127 < (Char.ofUInt8 b).toNat := UInt8.le_iff_toNat_le.1 h

theorem mark_of_not_semicolon (hc : c ≠ ';') : m.mark c = ⟨false, m.continuation⟩ := by
  simp [State.mark, hc]

/-! ## The pass over one character -/

theorem behindDots_cons {x : UInt8 × Mark} : MaskPass.behindDots (x :: passed) = true ↔
    x.1 = 0x2E ∧ passed.head?.map Prod.fst = some 0x2E := by
  cases passed <;> simp [MaskPass.behindDots]

/-- No three dots reach from the bytes behind into the text. -/
structure Apart (passed : List (UInt8 × Mark)) (t : Text) : Prop where
  one : passed.head?.map Prod.fst = some 0x2E → ¬ ['.', '.'] <+: t
  two : MaskPass.behindDots passed = true → t.head? ≠ some '.'

/-- Behind what is no dot any text may stand. -/
theorem apart_of_head (h : passed.head?.map Prod.fst ≠ some 0x2E) (t : Text) : Apart passed t := by
  refine ⟨fun hdot => (h hdot).elim, fun hdots => (h ?_).elim⟩
  cases passed with
  | nil => cases hdots
  | cons x passed => simp [(behindDots_cons.1 hdots).1]

/-- Behind a dot that begins no continuation. -/
theorem Apart.dot (h : Apart passed ('.' :: t)) (hd : startsContinuation ('.' :: t) = false) (mark : Mark) :
    Apart ((0x2E, mark) :: passed) t := by
  refine ⟨fun _ ⟨u, hu⟩ => ?_, fun hdots hhead => ?_⟩
  · rw [← hu] at hd
    cases hd
  · obtain ⟨u, rfl⟩ : ∃ u, t = '.' :: u := by
      cases t with
      | nil => cases hhead
      | cons d u => exact ⟨u, by rw [Option.some.inj hhead]⟩
    exact h.one (behindDots_cons.1 hdots).2 ⟨u, rfl⟩

theorem step_of_not_dots (h : Char.ofUInt8 b = '.' → m.code = true → MaskPass.behindDots passed = false) :
    MaskPass.step ⟨m, passed⟩ b = ⟨m.next (Char.ofUInt8 b), (b, m.mark (Char.ofUInt8 b)) :: passed⟩ := by
  unfold MaskPass.step
  refine if_neg fun hdots => ?_
  simp only [Bool.and_eq_true, decide_eq_true_eq] at hdots
  obtain ⟨⟨hb, hcode⟩, hbehind⟩ := hdots
  rw [hb, next_of_not_mem (by decide)] at hcode
  rw [h hb hcode] at hbehind
  cases hbehind

/-- Bytes above ASCII leave the state, and get the mark of what surrounds them. -/
theorem foldl_step_high {bytes : List UInt8} (h : ∀ b ∈ bytes, 0x80 ≤ b) (passed : List (UInt8 × Mark)) :
    bytes.foldl MaskPass.step ⟨m, passed⟩ =
      ⟨m, (bytes.map fun b => (b, ⟨false, m.continuation⟩)).reverse ++ passed⟩ := by
  induction bytes generalizing passed with
  | nil => rfl
  | cons b bytes ih =>
    obtain ⟨hsigns, hsemi, hdot⟩ := not_sign_of_high (high_ofUInt8 (h b List.mem_cons_self))
    rw [List.foldl_cons, step_of_not_dots fun hb => (hdot hb).elim, next_of_not_mem hsigns,
      mark_of_not_semicolon hsemi, ih fun d hd => h d (List.mem_cons_of_mem b hd)]
    simp

/-- The bytes of a character, all with its mark. -/
def withMark (mark : Mark) (c : Char) : List (UInt8 × Mark) := (String.utf8EncodeChar c).map (·, mark)

/-- The pass goes over the bytes of a character as the scan does over the character. -/
theorem foldl_step_char (h : c = '.' → m.code = true → MaskPass.behindDots passed = false) :
    (String.utf8EncodeChar c).foldl MaskPass.step ⟨m, passed⟩ =
      ⟨m.next c, (withMark (m.mark c) c).reverse ++ passed⟩ := by
  rw [withMark]
  rcases utf8EncodeChar_cases c with ⟨b, hb, rfl⟩ | ⟨hc, hhigh⟩
  · rw [hb]
    exact step_of_not_dots h
  · obtain ⟨hsigns, hsemi, -⟩ := not_sign_of_high hc
    rw [foldl_step_high hhigh, next_of_not_mem hsigns, mark_of_not_semicolon hsemi]

/-- At the third dot the pass looks back. -/
theorem foldl_step_dots (hcode : m.code = true) (h : Apart passed ('.' :: '.' :: '.' :: t)) :
    (utf8 ['.', '.', '.']).foldl MaskPass.step ⟨m, passed⟩ =
      ⟨m.continued, List.replicate 3 (0x2E, ⟨false, true⟩) ++ passed⟩ := by
  have hdot : Char.ofUInt8 0x2E = '.' := rfl
  have hnext : m.next '.' = m := next_of_not_mem (by decide) m
  have hmark : m.mark '.' = ⟨false, m.continuation⟩ := mark_of_not_semicolon (by decide)
  -- neither the first dot nor the second has two dots behind it
  have hfirst : MaskPass.behindDots passed = false := Bool.eq_false_iff.2 fun hdots => h.two hdots rfl
  have hsecond : MaskPass.behindDots ((0x2E, m.mark '.') :: passed) = false :=
    Bool.eq_false_iff.2 fun hdots => h.one (behindDots_cons.1 hdots).2 ⟨'.' :: t, rfl⟩
  show MaskPass.step (MaskPass.step (MaskPass.step ⟨m, passed⟩ 0x2E) 0x2E) 0x2E = _
  rw [step_of_not_dots fun _ _ => hfirst, hdot, hnext, step_of_not_dots fun _ _ => hsecond, hdot, hnext]
  simp [MaskPass.step, hdot, hnext, hmark, hcode, MaskPass.behindDots, MaskPass.blanked]

/-! ## The pass over a text -/

/-- The bytes of a text, each with the mark of its character. -/
def withMarks (marks : List Mark) (t : Text) : List (UInt8 × Mark) := (List.zipWith withMark marks t).flatten

theorem withMarks_cons (mark : Mark) (marks : List Mark) (c : Char) (t : Text) :
    withMarks (mark :: marks) (c :: t) = withMark mark c ++ withMarks marks t := rfl

/-- Where the mask comes into code, the character in front is no dot. -/
theorem apart_next (h : m.code = true → Apart passed (c :: t))
    (hc : ¬ (m.code = true ∧ startsContinuation (c :: t) = true)) (hcode : (m.next c).code = true) :
    Apart ((withMark (m.mark c) c).reverse ++ passed) t := by
  by_cases hdot : c = '.'
  · subst hdot
    rw [next_of_not_mem (by decide)] at hcode
    exact (h hcode).dot (Bool.eq_false_iff.2 fun hd => hc ⟨hcode, hd⟩) _
  · -- the last byte of another character is no dot
    refine apart_of_head (fun hhead => hdot (eq_of_mem_utf8EncodeChar (b := 0x2E) (by decide) ?_)) t
    obtain ⟨front, b, hfront⟩ : ∃ front b, String.utf8EncodeChar c = front ++ [b] :=
      ⟨_, _, (List.dropLast_append_getLast (utf8EncodeChar_ne_nil c)).symm⟩
    rw [withMark, hfront] at hhead
    obtain rfl : b = 0x2E := by simpa using hhead
    simp [hfront]

theorem foldl_step (h : m.code = true → Apart passed t) :
    (utf8 t).foldl MaskPass.step ⟨m, passed⟩ = ⟨after m t, (withMarks (scan m t) t).reverse ++ passed⟩ := by
  induction m, t using mask_induction generalizing passed with
  | nil => rfl
  | dots m t hcode ih =>
    -- in a continuation no dots are looked for
    have hno : m.continued.code = true → Apart (List.replicate 3 (0x2E, ⟨false, true⟩) ++ passed) t := by
      simp [State.continued, State.code]
    have hutf8 : utf8 ('.' :: '.' :: '.' :: t) = utf8 ['.', '.', '.'] ++ utf8 t := utf8_append ['.', '.', '.'] t
    rw [hutf8, List.foldl_append, foldl_step_dots hcode (h hcode), ih hno, after_dots hcode, Mask.scan, if_pos hcode]
    have hdots : withMark ⟨false, true⟩ '.' = [(0x2E, ⟨false, true⟩)] := rfl
    simp only [withMarks_cons, hdots]
    simp
  | cons m c t hc ih =>
    have hone : c = '.' → m.code = true → MaskPass.behindDots passed = false := by
      rintro rfl hcode
      exact Bool.eq_false_iff.2 fun hdots => (h hcode).two hdots rfl
    rw [utf8_cons, List.foldl_append, foldl_step_char hone, ih (apart_next h hc), after_cons hc,
      scan_of_not_dots hc, withMarks_cons, List.reverse_append, List.append_assoc]

/-- The pass gives every byte the mark of its character. -/
theorem markBytes_utf8 (script : Text) : markBytes (utf8 script) = withMarks (ofScript script) script := by
  rw [markBytes, foldl_step fun _ => apart_of_head (by simp) script]
  simp [ofScript]

/-! ## The bytes of the masked text -/

variable {marks : List Mark} {script : Text}

theorem fst_step (p : MaskPass) (b : UInt8) : (p.step b).passed.map Prod.fst = b :: p.passed.map Prod.fst := by
  have hblanked : Prod.fst ∘ MaskPass.blanked = Prod.fst := rfl
  unfold MaskPass.step
  dsimp only
  split
  · rw [List.map_append, List.map_map, hblanked, ← List.map_append, List.take_append_drop, List.map_cons]
  · rfl

/-- Every byte has one mark. -/
theorem fst_markBytes (bytes : List UInt8) : (markBytes bytes).map Prod.fst = bytes := by
  have hrun : ∀ p : MaskPass, (bytes.foldl MaskPass.step p).passed.map Prod.fst =
      bytes.reverse ++ p.passed.map Prod.fst := by
    induction bytes with
    | nil => exact fun _ => rfl
    | cons b bytes ih =>
      intro p
      rw [List.foldl_cons, ih, fst_step, List.reverse_cons, List.append_assoc, List.singleton_append]
  rw [markBytes, List.map_reverse, hrun]
  simp

theorem protect_withMarks {x : UInt8 × Mark} (hfits : List.Forall₂ Mark.Fits marks t) (hx : x ∈ withMarks marks t)
    (h : x.2.protect = true) : x.1 = 0x3B := by
  induction hfits with
  | nil => cases hx
  | @cons mark c marks t hfit _ ih =>
    rw [withMarks_cons, List.mem_append] at hx
    rcases hx with hx | hx
    · obtain ⟨b, hb, rfl⟩ := List.mem_map.1 hx
      rw [hfit h] at hb
      exact List.mem_singleton.1 hb
    · exact ih hx

/-- Only semicolons are protected. -/
theorem protect_markBytes {x : UInt8 × Mark} (hx : x ∈ markBytes (utf8 script)) (h : x.2.protect = true) :
    x.1 = 0x3B :=
  protect_withMarks (fits_scan .start script) (markBytes_utf8 script ▸ hx) h

/-- What is made of each character of a text, and of its bytes, is made of the text and its bytes. -/
theorem utf8_zipWith {f : Mark → Char → Text} {g : UInt8 × Mark → UInt8}
    (hfits : List.Forall₂ Mark.Fits marks t)
    (h : ∀ mark, ∀ c ∈ t, Mark.Fits mark c → utf8 (f mark c) = (withMark mark c).map g) :
    utf8 (List.zipWith f marks t).flatten = (withMarks marks t).map g := by
  induction hfits with
  | nil => rfl
  | @cons mark c marks t hfit _ ih =>
    rw [List.zipWith_cons_cons, List.flatten_cons, utf8_append, h mark c List.mem_cons_self hfit,
      ih fun mark d hd => h mark d (List.mem_cons_of_mem c hd), withMarks_cons, List.map_append]

theorem utf8_blanks (n : Nat) : utf8 (List.replicate n ' ') = List.replicate n 0x20 := by
  induction n with
  | zero => rfl
  | succ n ih =>
    rw [List.replicate_succ, utf8_cons, ih]
    rfl

/-- Each byte of a blanked character is a blank. -/
theorem map_withMark_of_blank {g : UInt8 × Mark → UInt8} (h : ∀ b, g (b, mark) = 0x20) (c : Char) :
    utf8 (List.replicate c.utf8Size ' ') = (withMark mark c).map g := by
  have hconst : g ∘ (·, mark) = fun _ => 0x20 := funext h
  rw [utf8_blanks, withMark, List.map_map, hconst, List.map_const', String.length_utf8EncodeChar]

theorem map_withMark_of_keep {g : UInt8 × Mark → UInt8} (h : ∀ b, g (b, mark) = b) (c : Char) :
    utf8 [c] = (withMark mark c).map g := by
  have hid : g ∘ (·, mark) = id := funext h
  rw [withMark, List.map_map, hid, List.map_id, utf8_cons]
  exact List.append_nil _

theorem utf8_applyTo (h : mark.Fits c) : utf8 (applyTo mark c) = (withMark mark c).map maskByte := by
  unfold applyTo
  split
  · next hblank => exact map_withMark_of_blank (fun b => if_pos hblank) c
  next hblank =>
  split
  · next hprotect =>
    rw [h hprotect]
    simp [withMark, maskByte, hblank, hprotect, utf8, sentinel, String.utf8EncodeChar]
  · next hprotect => exact map_withMark_of_keep (fun b => by simp [maskByte, hblank, hprotect]) c

/-- The masked bytes are the bytes of the masked text. -/
theorem utf8_sanitize (script : Text) : utf8 (sanitize script) = (markBytes (utf8 script)).map maskByte := by
  rw [markBytes_utf8]
  exact utf8_zipWith (fits_scan .start script) fun _ _ _ => utf8_applyTo

/-- No byte of the masked text has to be substituted. -/
theorem fromUTF8?_maskByte (script : Text) :
    String.fromUTF8? ((markBytes (utf8 script)).map maskByte).toByteArray = some (String.ofList (sanitize script)) := by
  rw [← utf8_sanitize, ← encode_eq, ScriptFile.fromUTF8?_encode]

theorem utf8_unmask_applyTo (h : mark.Fits c) (hc : c ≠ sentinel) :
    utf8 (unmask (applyTo mark c)) = (withMark mark c).map blankByte := by
  unfold applyTo
  split
  · next hblank =>
    rw [unmask_replicate]
    exact map_withMark_of_blank (fun b => if_pos hblank) c
  next hblank =>
  have hone : unmask (if mark.protect = true then [sentinel] else [c]) = [c] := by
    split
    · next hprotect =>
      rw [h hprotect]
      rfl
    · simp [unmask, hc]
  rw [hone]
  exact map_withMark_of_keep (fun b => if_neg hblank) c

/-- Unmasking takes back everything but the blanks. -/
theorem utf8_unmask_sanitize (hs : sentinel ∉ script) :
    utf8 (unmask (sanitize script)) = (markBytes (utf8 script)).map blankByte := by
  have hunmask : unmask (sanitize script) =
      (List.zipWith (fun mark c => unmask (applyTo mark c)) (ofScript script) script).flatten := by
    simp [sanitize, apply, unmask, List.map_flatten, List.map_zipWith]
  rw [hunmask, markBytes_utf8]
  refine utf8_zipWith (fits_scan .start script) fun mark c hc hfit => utf8_unmask_applyTo hfit ?_
  rintro rfl
  exact hs hc

theorem places_withMark (p : Mark → Bool) (offset : Nat) (mark : Mark) (c : Char) :
    (((withMark mark c).zipIdx offset).filter fun x => p x.1.2).map Prod.snd =
      if p mark then List.range' offset c.utf8Size else [] := by
  have hmark : ∀ x ∈ (withMark mark c).zipIdx offset, p x.1.2 = p mark := by
    intro x hx
    obtain ⟨b, -, hb⟩ := List.mem_map.1 (List.fst_mem_of_mem_zipIdx hx)
    rw [← hb]
  rw [List.filter_congr hmark]
  split
  · next hp =>
    rw [hp, List.filter_true, List.zipIdx_map_snd, withMark, List.length_map, String.length_utf8EncodeChar]
  · next hp => simp [hp]

/-- The offsets of a mask are the places of the marked bytes. -/
theorem offsets_eq (p : Mark → Bool) (offset : Nat) (marks : List Mark) (t : Text) :
    offsets p offset marks t = (((withMarks marks t).zipIdx offset).filter fun x => p x.1.2).map Prod.snd := by
  induction marks generalizing offset t with
  | nil => cases t <;> rfl
  | cons mark marks ih =>
    cases t with
    | nil => rfl
    | cons c t =>
      rw [offsets, ih, withMarks_cons, List.zipIdx_append, List.filter_append, List.map_append, places_withMark,
        withMark, List.length_map, String.length_utf8EncodeChar]

end Edit

end ConfigScript
