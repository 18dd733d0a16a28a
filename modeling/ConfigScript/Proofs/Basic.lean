import ConfigScript.Text.Basic
/-!
# Results and texts

Facts about results that may be errors and about texts that several proofs need.
-/

namespace ConfigScript

/-- A step of a computation that may fail succeeds if both of its parts do. -/
theorem bind_eq_ok {ε α β : Type} {x : Except ε α} {f : α → Except ε β} {b : β} :
    x >>= f = .ok b ↔ ∃ a, x = .ok a ∧ f a = .ok b := by
  cases x with
  | error e => simp [bind, Except.bind]
  | ok a => simp [bind, Except.bind]

theorem bind_eq_error {ε α β : Type} {x : Except ε α} {f : α → Except ε β} {e : ε} :
    x >>= f = .error e ↔ x = .error e ∨ ∃ a, x = .ok a ∧ f a = .error e := by
  cases x with
  | error e => simp [bind, Except.bind]
  | ok a => simp [bind, Except.bind]

/-- A list of steps fails with one of them. -/
theorem exists_of_mapM_eq_error {ε α β : Type} {f : α → Except ε β} {xs : List α} {e : ε}
    (h : xs.mapM f = .error e) : ∃ x ∈ xs, f x = .error e := by
  induction xs with
  | nil => cases h
  | cons x xs ih =>
    rw [List.mapM_cons, bind_eq_error] at h
    rcases h with h | ⟨y, -, h⟩
    · exact ⟨x, List.mem_cons_self, h⟩
    · rcases bind_eq_error.1 h with h | ⟨ys, -, h⟩
      · obtain ⟨z, hz, hfz⟩ := ih h
        exact ⟨z, List.mem_cons_of_mem x hz, hfz⟩
      · cases h

theorem ok_of_toOption {ε α : Type} {x : Except ε α} {a : α} (h : x.toOption = some a) : x = .ok a := by
  cases x with
  | ok b =>
    cases h
    rfl
  | error e => cases h

namespace Text

theorem byteLength_append (t u : Text) : byteLength (t ++ u) = byteLength t + byteLength u := by
  induction t with
  | nil => simp [byteLength]
  | cons c t ih => simp [byteLength, ih, Nat.add_assoc]

theorem byteLength_pos {t : Text} (h : t ≠ []) : 0 < byteLength t := by
  cases t with
  | nil => exact (h rfl).elim
  | cons c t => exact Nat.lt_of_lt_of_le c.utf8Size_pos (Nat.le_add_right _ _)

theorem lineBreaks_append (t u : Text) : lineBreaks (t ++ u) = lineBreaks t + lineBreaks u :=
  List.count_append

/-- Cutting behind a front piece takes exactly that piece. -/
theorem splitAtByte_byteLength (t u : Text) : splitAtByte (byteLength t) (t ++ u) = (t, u) := by
  induction t with
  | nil =>
    cases u with
    | nil => rfl
    | cons c u =>
      have hc : ¬ c.utf8Size ≤ 0 := Nat.not_le.2 c.utf8Size_pos
      simp [byteLength, splitAtByte, hc]
  | cons c t ih => simp [byteLength, splitAtByte, ih]

theorem takeBytes_byteLength (t u : Text) : (t ++ u).takeBytes (byteLength t) = t :=
  congrArg Prod.fst (splitAtByte_byteLength t u)

theorem dropBytes_byteLength (t u : Text) : (t ++ u).dropBytes (byteLength t) = u :=
  congrArg Prod.snd (splitAtByte_byteLength t u)

/-- A text has one front piece of each length. -/
theorem append_inj {t t' u u' : Text} (h : t ++ u = t' ++ u') (hl : byteLength t = byteLength t') :
    t = t' ∧ u = u' := by
  have hcut := splitAtByte_byteLength t u
  rw [h, hl, splitAtByte_byteLength, Prod.mk.injEq] at hcut
  exact ⟨hcut.1.symm, hcut.2.symm⟩

theorem slice_byteLength (t u v : Text) :
    (t ++ (u ++ v)).slice (byteLength t) (byteLength t + byteLength u) = u := by
  rw [slice, dropBytes_byteLength, Nat.add_sub_cancel_left, takeBytes_byteLength]

/-! ## Digits -/

theorem digitsValue_eq (digits : Text) : digitsValue digits = Nat.ofDigitChars 10 digits 0 := by
  unfold digitsValue
  rw [Nat.ofDigitChars_eq_foldl]
  simp only [Nat.mul_comm]

theorem digitsValue_ofNat (n : Nat) : digitsValue (ofNat n) = n := by
  rw [digitsValue_eq, ofNat, Nat.ofDigitChars_ten_toDigits]

/-- Zeros in front do not count. -/
theorem digitsValue_padded (width : Nat) (t : Text) : digitsValue (padded width t) = digitsValue t := by
  rw [digitsValue_eq, digitsValue_eq, padded, Nat.ofDigitChars_append, Nat.ofDigitChars_replicate_zero,
    Nat.mul_zero]

theorem isDigit_of_mem_ofNat {n : Nat} {c : Char} (h : c ∈ ofNat n) : c.isDigit = true :=
  Nat.isDigit_of_mem_toDigits (by decide) (by decide) h

theorem ofNat_ne_nil (n : Nat) : ofNat n ≠ [] := Nat.toDigits_ne_nil

/-! ## Heads -/

theorem dropHead?_eq_some {head t rest : Text} : dropHead? head t = some rest ↔ t = head ++ rest := by
  induction head generalizing t with
  | nil => simp [dropHead?]
  | cons h head ih =>
    cases t with
    | nil => simp [dropHead?]
    | cons c t =>
      unfold dropHead?
      split
      · next hc => simp [ih, hc]
      · next hc => simp [Ne.symm hc]

end Text

end ConfigScript
