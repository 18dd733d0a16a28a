import ConfigScript.Edit.Mask
import ConfigScript.Proofs.Basic
import Mathlib.Data.List.Forall2
/-!
# Masked text and its script

A masked character takes as many bytes as before, so where masked text shows a character, the script
has that character at the same byte offset (`apply_eq_append_cons`).
-/

namespace ConfigScript

namespace Edit

open Mask

variable {marks : List Mark} {m : Mark} {t front back shown : Text} {c : Char}

/-- Only semicolons are protected. -/
def Mark.Fits (m : Mark) (c : Char) : Prop := m.protect = true → c = ';'

theorem fits_mark (s : State) (c : Char) : (s.mark c).Fits c := by
  intro h
  simp only [State.mark, Bool.and_eq_true, decide_eq_true_eq] at h
  exact h.1

theorem fits_scan (s : State) (t : Text) : List.Forall₂ Mark.Fits (scan s t) t := by
  have hblank : ∀ c, Mark.Fits ⟨false, true⟩ c := fun c h => by cases h
  fun_induction scan s t with
  | case1 => exact .nil
  | case2 s t hcode ih => exact .cons (hblank _) (.cons (hblank _) (.cons (hblank _) ih))
  | case3 s t hcode ih => exact .cons (fits_mark _ _) ih
  | case4 s c t hdots ih => exact .cons (fits_mark _ _) ih

theorem byteLength_blanks (n : Nat) : Text.byteLength (List.replicate n ' ') = n := by
  induction n with
  | zero => rfl
  | succ n ih => rw [List.replicate_succ, Text.byteLength, ih, Nat.add_comm]; rfl

theorem byteLength_applyTo (h : m.Fits c) : Text.byteLength (applyTo m c) = c.utf8Size := by
  unfold applyTo
  split
  · exact byteLength_blanks _
  · split
    · next hp =>
      rw [h hp]
      rfl
    · rfl

/-- A text with what it shows cut at a character that is shown, and the cut of the text itself. -/
theorem apply_eq_append_cons (h : List.Forall₂ Mark.Fits marks t) (hshown : apply marks t = front ++ c :: back)
    (hblank : c ≠ ' ') (hsentinel : c ≠ sentinel) :
    ∃ front' back' marks', t = front' ++ c :: back' ∧ Text.byteLength front' = Text.byteLength front ∧
      List.Forall₂ Mark.Fits marks' back' ∧ apply marks' back' = back := by
  induction h generalizing front with
  | nil => simp [apply] at hshown
  | @cons m d marks t hm hmore ih =>
    change applyTo m d ++ apply marks t = _ at hshown
    rcases List.append_eq_append_iff.1 hshown with ⟨more, hfront, hrest⟩ | ⟨more, happ, hback⟩
    · obtain ⟨front', back', marks', rfl, hlen, hfits, hback⟩ := ih hrest
      refine ⟨d :: front', back', marks', rfl, ?_, hfits, hback⟩
      rw [hfront, Text.byteLength_append, byteLength_applyTo hm, ← hlen, Text.byteLength]
    · cases more with
      | nil =>
        -- the character is the first of what is behind
        obtain ⟨front', back', marks', rfl, hlen, hfits, hback⟩ := @ih [] hback.symm
        refine ⟨d :: front', back', marks', rfl, ?_, hfits, hback⟩
        rw [List.append_nil] at happ
        rw [← happ, byteLength_applyTo hm, Text.byteLength, hlen]
        rfl
      | cons x more =>
        obtain ⟨rfl, rfl⟩ := List.cons.inj hback
        -- what is no blank is the character itself
        have hmem : c ∈ applyTo m d := by simp [happ]
        unfold applyTo at hmem happ
        split at hmem
        · exact (hblank (List.eq_of_mem_replicate hmem)).elim
        · next hno =>
          rw [if_neg hno] at happ
          split at hmem
          · exact (hsentinel (List.mem_singleton.1 hmem)).elim
          · next hplain =>
            rw [if_neg hplain] at happ
            cases front with
            | nil =>
              obtain ⟨rfl, rfl⟩ := List.cons.inj happ
              exact ⟨[], t, marks, rfl, rfl, hmore, rfl⟩
            | cons y front => simp at happ

/-- The same for a part of the text that shows nothing but itself. -/
theorem apply_eq_append (h : List.Forall₂ Mark.Fits marks t) (hshown : apply marks t = front ++ (shown ++ back))
    (hne : shown ≠ []) (hplain : ∀ c ∈ shown, c ≠ ' ' ∧ c ≠ sentinel) :
    ∃ front' back' marks', t = front' ++ (shown ++ back') ∧ Text.byteLength front' = Text.byteLength front ∧
      List.Forall₂ Mark.Fits marks' back' ∧ apply marks' back' = back := by
  induction shown generalizing marks t front with
  | nil => exact (hne rfl).elim
  | cons c shown ih =>
    have hc := hplain c List.mem_cons_self
    obtain ⟨front', back', marks', rfl, hlen, hfits, hback⟩ := apply_eq_append_cons h hshown hc.1 hc.2
    cases shown with
    | nil => exact ⟨front', back', marks', rfl, hlen, hfits, hback⟩
    | cons d shown =>
      obtain ⟨gap, last, marks'', rfl, hgap, hfits', hlast⟩ :=
        @ih marks' back' [] hfits hback (List.cons_ne_nil _ _) fun x hx => hplain x (List.mem_cons_of_mem c hx)
      -- no byte lies between two characters that are shown side by side
      obtain rfl : gap = [] := by
        by_contra hne
        exact absurd (hgap ▸ Text.byteLength_pos hne) (by decide)
      exact ⟨front', last, marks'', rfl, hlen, hfits', hlast⟩

end Edit

end ConfigScript
