import ConfigScript.Proofs.Rendered
/-!
# Delimited texts

A printed value goes up to the sign that ends it. So a text that begins with one can be cut in one way only, whatever
stands behind the pieces (`Text.SameOnlyIf`): a word goes up to the first sign, a quoted text up to an apostrophe alone,
brackets and lists go on piece after piece.
-/

namespace ConfigScript

open Edit (Word not_mem_signs_of_word)
open Token (doubled doubled_quote doubled_cons)

namespace Text

/-- The text is empty or begins with one of these characters. -/
def StartsIn (ends t : Text) : Prop := ∀ c ∈ t.head?, c ∈ ends

/-- With nothing or one of `ends` behind them, `t` and `u` begin the same text only if `P` holds, and what stands
behind them is then the same. -/
def SameOnlyIf (ends t u : Text) (P : Prop) : Prop :=
  ∀ r r', StartsIn ends r → StartsIn ends r' → t ++ r = u ++ r' → P ∧ r = r'

variable {ends wider t t' u u' r : Text} {P Q : Prop} {c d : Char}

theorem startsIn_cons : StartsIn ends (c :: t) ↔ c ∈ ends := by simp [StartsIn]

theorem StartsIn.mono (h : StartsIn ends t) (hsub : ends ⊆ wider) : StartsIn wider t := fun c hc => hsub (h c hc)

theorem StartsIn.left (h : StartsIn ends (t ++ u)) : StartsIn ends t := by
  cases t with
  | nil => nofun
  | cons c t => exact h

theorem SameOnlyIf.mono (h : SameOnlyIf wider t u P) (hsub : ends ⊆ wider) : SameOnlyIf ends t u P :=
  fun r r' hr hr' => h r r' (hr.mono hsub) (hr'.mono hsub)

theorem SameOnlyIf.imp (h : SameOnlyIf ends t u P) (hPQ : P → Q) : SameOnlyIf ends t u Q :=
  fun r r' hr hr' heq => (h r r' hr hr' heq).imp_left hPQ

/-- The texts themselves are the case with nothing behind them. -/
theorem SameOnlyIf.of_eq (h : SameOnlyIf ends t u P) (heq : t = u) : P :=
  (h [] [] nofun nofun (by rw [heq])).1

theorem sameOnlyIf_self (t : Text) : SameOnlyIf ends t t True := fun _ _ _ _ heq =>
  ⟨trivial, List.append_cancel_left heq⟩

theorem sameOnlyIf_of_ne (h : c ≠ d) : SameOnlyIf ends (c :: t) (d :: u) P := fun _ _ _ _ heq =>
  absurd (List.cons.inj heq).1 h

theorem SameOnlyIf.behind (h : SameOnlyIf ends t u P) (front : Text) :
    SameOnlyIf ends (front ++ t) (front ++ u) P := fun r r' hr hr' heq => by
  rw [List.append_assoc, List.append_assoc] at heq
  exact h r r' hr hr' (List.append_cancel_left heq)

/-- A sign ends the first piece, and the second goes on from there. -/
theorem SameOnlyIf.append (h : SameOnlyIf [c] t u P) (h' : SameOnlyIf ends t' u' Q) :
    SameOnlyIf ends (t ++ c :: t') (u ++ c :: u') (P ∧ Q) := fun r r' hr hr' heq => by
  rw [List.append_assoc, List.append_assoc] at heq
  obtain ⟨hP, hrest⟩ := h (c :: t' ++ r) (c :: u' ++ r') (by simp [startsIn_cons]) (by simp [startsIn_cons]) heq
  obtain ⟨hQ, hend⟩ := h' r r' hr hr' (List.cons.inj hrest).2
  exact ⟨⟨hP, hQ⟩, hend⟩

/-- In a bracket the closing sign is what stands behind. -/
theorem SameOnlyIf.bracket (h : SameOnlyIf [c] t u P) (front : Text) :
    SameOnlyIf ends (front ++ t ++ [c]) (front ++ u ++ [c]) P :=
  ((h.behind front).append (sameOnlyIf_self [])).imp And.left

/-- A text without any of `ends` reaches up to the first of them. -/
theorem sameOnlyIf_of_clear (ht : ∀ c ∈ t, c ∉ ends) (hu : ∀ c ∈ u, c ∉ ends) :
    SameOnlyIf ends t u (t = u) := by
  intro r r' hr hr' heq
  induction t generalizing u with
  | nil =>
    cases u with
    | nil => exact ⟨rfl, heq⟩
    | cons d u =>
      obtain rfl : r = d :: (u ++ r') := heq
      exact (hu d List.mem_cons_self (startsIn_cons.1 hr)).elim
  | cons c t ih =>
    cases u with
    | nil =>
      obtain rfl : c :: (t ++ r) = r' := heq
      exact (ht c List.mem_cons_self (startsIn_cons.1 hr')).elim
    | cons d u =>
      obtain ⟨rfl, hcut⟩ := List.cons.inj heq
      obtain ⟨rfl, hrest⟩ := ih (fun e he => ht e (List.mem_cons_of_mem c he))
        (fun e he => hu e (List.mem_cons_of_mem c he)) hcut
      exact ⟨rfl, hrest⟩

/-- What may stand behind a printed value in a list or at the end of a bracket. -/
def closers : Text := [',', ';', ')', ']', '\x7d']

theorem not_mem_closers_of_word (h : Word t) (hc : c ∈ t) : c ∉ closers := by
  have hsigns : [';', ')', ']', '\x7d'] ⊆ Edit.signs := by decide
  rw [closers, List.mem_cons, not_or]
  refine ⟨?_, fun hm => not_mem_signs_of_word h hc (hsigns hm)⟩
  rintro rfl
  rcases h.chars _ hc with hp | hp | hp <;> cases hp

theorem sameOnlyIf_word (ht : Word t) (hu : Word u) : SameOnlyIf closers t u (t = u) :=
  sameOnlyIf_of_clear (fun _ hc => not_mem_closers_of_word ht hc) fun _ hc => not_mem_closers_of_word hu hc

/-! ## Quoted texts -/

/-- No quoted text ends where another one has a character. -/
theorem closing_ne_doubled (hr : StartsIn ends r) (hends : '\x27' ∉ ends) :
    '\x27' :: r ≠ doubled (d :: t) ++ u := by
  intro heq
  by_cases hd : d = '\x27'
  · rw [hd, doubled_quote] at heq
    obtain rfl := (List.cons.inj heq).2
    exact hends (startsIn_cons.1 hr)
  · rw [doubled_cons hd] at heq
    exact hd (List.cons.inj heq).1.symm

/-- An apostrophe ends a quoted text unless another one stands behind it. -/
theorem sameOnlyIf_quote (hends : '\x27' ∉ ends) (t u : Text) : SameOnlyIf ends (quote t) (quote u) (t = u) := by
  suffices h : SameOnlyIf ends (doubled t ++ ['\x27']) (doubled u ++ ['\x27']) (t = u) from h.behind ['\x27']
  intro r r' hr hr' heq
  rw [List.append_assoc, List.append_assoc] at heq
  induction t generalizing u with
  | nil =>
    cases u with
    | nil => exact ⟨rfl, (List.cons.inj heq).2⟩
    | cons d u => exact (closing_ne_doubled hr hends heq).elim
  | cons c t ih =>
    cases u with
    | nil => exact (closing_ne_doubled hr' hends heq.symm).elim
    | cons d u =>
      suffices h : c = d ∧ doubled t ++ (['\x27'] ++ r) = doubled u ++ (['\x27'] ++ r') by
        obtain ⟨rfl, hrest⟩ := ih u h.2
        exact ⟨congrArg (· :: t) h.1, hrest⟩
      by_cases hc : c = '\x27' <;> by_cases hd : d = '\x27'
      · rw [hc, hd, doubled_quote, doubled_quote] at heq
        exact ⟨hc.trans hd.symm, (List.cons.inj (List.cons.inj heq).2).2⟩
      · rw [hc, doubled_quote, doubled_cons hd] at heq
        exact (hd (List.cons.inj heq).1.symm).elim
      · rw [hd, doubled_quote, doubled_cons hc] at heq
        exact (hc (List.cons.inj heq).1).elim
      · rw [doubled_cons hc, doubled_cons hd] at heq
        exact List.cons.inj heq

/-! ## Lists -/

/-- The pieces of a list behind its first one, `c` in front of each. -/
def followers (c : Char) (ts : List Text) : Text := ts.flatMap fun t => c :: ' ' :: t

theorem followers_cons (c : Char) (t : Text) (ts : List Text) :
    followers c (t :: ts) = c :: ' ' :: join [c, ' '] (t :: ts) := by
  induction ts generalizing t with
  | nil => rw [join_single, followers, List.flatMap_cons, List.flatMap_nil, List.append_nil]
  | cons u ts ih =>
    rw [followers, List.flatMap_cons, ← followers, ih, join_cons_cons]
    rfl

theorem startsIn_followers (hr : StartsIn ends r) (ts : List Text) : StartsIn (c :: ends) (followers c ts ++ r) := by
  cases ts with
  | nil => exact hr.mono (List.subset_cons_self c ends)
  | cons t ts => exact startsIn_cons.2 List.mem_cons_self

/-- A list begins with its first piece. -/
theorem exists_join (separator t : Text) (ts : List Text) : ∃ rest, join separator (t :: ts) = t ++ rest := by
  cases ts with
  | nil => exact ⟨[], by rw [join_single, List.append_nil]⟩
  | cons u ts => exact ⟨_, join_cons_cons separator t u ts⟩

theorem startsIn_join {separator : Text} {ts : List Text} (h : StartsIn ends (join separator (t :: ts))) :
    StartsIn ends t := by
  obtain ⟨rest, hcut⟩ := exists_join separator t ts
  exact (hcut ▸ h).left

variable {α : Type} {f : α → Text} {R : α → α → Prop} {as bs : List α}

theorem sameOnlyIf_followers (hc : c ∉ ends) (h : ∀ a ∈ as, ∀ b ∈ bs, SameOnlyIf (c :: ends) (f a) (f b) (R a b)) :
    SameOnlyIf ends (followers c (as.map f)) (followers c (bs.map f)) (List.Forall₂ R as bs) := by
  intro r r' hr hr' heq
  induction as generalizing bs with
  | nil =>
    cases bs with
    | nil => exact ⟨.nil, heq⟩
    | cons b bs =>
      obtain rfl : r = c :: ' ' :: (f b ++ followers c (bs.map f)) ++ r' := heq
      exact (hc (startsIn_cons.1 hr)).elim
  | cons a as ih =>
    cases bs with
    | nil =>
      obtain rfl : c :: ' ' :: (f a ++ followers c (as.map f)) ++ r = r' := heq
      exact (hc (startsIn_cons.1 hr')).elim
    | cons b bs =>
      have hcut : f a ++ (followers c (as.map f) ++ r) = f b ++ (followers c (bs.map f) ++ r') := by
        simpa [followers] using heq
      obtain ⟨hab, hrest⟩ := h a List.mem_cons_self b List.mem_cons_self _ _ (startsIn_followers hr _)
        (startsIn_followers hr' _) hcut
      obtain ⟨hall, hend⟩ := ih (fun a ha b hb => h a (List.mem_cons_of_mem _ ha) b (List.mem_cons_of_mem _ hb)) hrest
      exact ⟨.cons hab hall, hend⟩

/-- A list is told by its pieces, each of which the next separator or the end of the list ends. -/
theorem sameOnlyIf_join (hc : c ∉ ends) (hsub : ends ⊆ closers) (has : ∀ a ∈ as, ¬ StartsIn closers (f a))
    (hbs : ∀ b ∈ bs, ¬ StartsIn closers (f b))
    (h : ∀ a ∈ as, ∀ b ∈ bs, SameOnlyIf (c :: ends) (f a) (f b) (R a b)) :
    SameOnlyIf ends (join [c, ' '] (as.map f)) (join [c, ' '] (bs.map f)) (List.Forall₂ R as bs) := by
  have started : ∀ {a as r r'}, ¬ StartsIn closers (f a) → StartsIn ends r →
      r ≠ join [c, ' '] ((a :: as).map f) ++ r' := by
    rintro a as r r' hno hr rfl
    exact hno ((startsIn_join hr.left).mono hsub)
  intro r r' hr hr' heq
  cases as with
  | nil =>
    cases bs with
    | nil => exact ⟨.nil, heq⟩
    | cons b bs => exact (started (hbs b List.mem_cons_self) hr heq).elim
  | cons a as =>
    cases bs with
    | nil => exact (started (has a List.mem_cons_self) hr' heq.symm).elim
    | cons b bs =>
      refine sameOnlyIf_followers hc h r r' hr hr' ?_
      rw [List.map_cons, List.map_cons] at heq ⊢
      rw [followers_cons, followers_cons]
      exact congrArg (c :: ' ' :: ·) heq

end Text

end ConfigScript
