import ConfigScript.Proofs.Lexemes
import ConfigScript.Value.Render
/-!
# Numerals

A numeral is a run of digits, perhaps with a fraction and a power of ten (`Spelled`). In front of what
ends an operand it is one lexeme, whose value is that of its parts (`numeral_of_spelled`). The digits
of a natural number are a numeral, and so is every text of the exact layout (`exists_spelled`).
-/

namespace ConfigScript

/-! ## Digits -/

/-- One decimal digit or more. -/
structure Digits (t : Text) : Prop where
  some : t ≠ []
  all : ∀ c ∈ t, c.isDigit = true

theorem digits_ofNat (n : Nat) : Digits (Text.ofNat n) :=
  ⟨Text.ofNat_ne_nil n, fun _ h => Text.isDigit_of_mem_ofNat h⟩

theorem digits_zero : Digits ['0'] := ⟨List.cons_ne_nil _ _, by simp⟩

variable {t u rest : Text}

theorem Digits.append (ht : Digits t) (hu : ∀ c ∈ u, c.isDigit = true) : Digits (t ++ u) := by
  refine ⟨fun h => ht.some (List.append_eq_nil_iff.1 h).1, fun c hc => ?_⟩
  rcases List.mem_append.1 hc with hc | hc
  · exact ht.all c hc
  · exact hu c hc

theorem isDigit_of_mem_zeros {n : Nat} {c : Char} (h : c ∈ List.replicate n '0') : c.isDigit = true := by
  rw [List.eq_of_mem_replicate h]
  rfl

/-- A part of digits that is not empty. -/
theorem Digits.part (ht : Digits t) (hu : u ≠ []) (hsub : ∀ c ∈ u, c ∈ t) : Digits u :=
  ⟨hu, fun c hc => ht.all c (hsub c hc)⟩

theorem Digits.takeWhile (ht : Digits t) (hrest : rest.head?.any Char.isDigit = false) :
    (t ++ rest).takeWhile Char.isDigit = t ∧ (t ++ rest).dropWhile Char.isDigit = rest := by
  obtain ⟨hw, hd⟩ := Token.takeWhile_of_any hrest
  rw [List.takeWhile_append_of_pos ht.all, List.dropWhile_append_of_pos ht.all, hw, hd]
  exact ⟨List.append_nil t, rfl⟩

theorem Digits.head (ht : Digits t) (rest : Text) : ∃ c u, t ++ rest = c :: u ∧ c.isDigit = true := by
  cases t with
  | nil => exact (ht.some rfl).elim
  | cons c t => exact ⟨c, t ++ rest, rfl, ht.all c List.mem_cons_self⟩

namespace Token

/-! ## What ends an operand -/

/-- The text is at its end, or goes on with a comma, a semicolon or a closing bracket. -/
def Delimits (t : Text) : Prop := ∀ c ∈ t.head?, c ∈ [',', ';', ')', ']', '\x7d']

theorem delimits_nil : Delimits [] := nofun

theorem delimits_cons {c : Char} {t : Text} : Delimits (c :: t) ↔ c ∈ [',', ';', ')', ']', '\x7d'] := by
  simp [Delimits]

/-- No delimiter is of this sort. -/
theorem Delimits.any (h : Delimits t) {p : Char → Bool} (hp : [',', ';', ')', ']', '\x7d'].any p = false) :
    t.head?.any p = false := by
  cases t with
  | nil => rfl
  | cons c t =>
    rw [List.any_eq_false] at hp
    exact Bool.eq_false_iff.2 (hp c (delimits_cons.1 h))

theorem Delimits.head_ne (h : Delimits t) {d : Char} (hd : d ∉ [',', ';', ')', ']', '\x7d']) :
    t.head? ≠ some d := fun ht => hd (h d ht)

/-! ## One numeral -/

/-- The digits behind the point, and how they are spelled with it. -/
inductive Fraction : Text → Text → Prop
  | none : Fraction [] []
  | digits {t : Text} : Digits t → Fraction t ('.' :: t)

/-- A power of ten, and how it is spelled. -/
inductive Power : Int → Text → Prop
  | none : Power 0 []
  | up {t : Text} : Digits t → Power (Text.digitsValue t) ('e' :: t)
  | down {t : Text} : Digits t → Power (-(Text.digitsValue t : Int)) ('e' :: '-' :: t)

/-- The text spells the numeral. -/
inductive Spelled : Number.Numeral → Text → Prop
  | mk {whole fraction pointed scaled : Text} {exponent : Int} :
    Digits whole → Fraction fraction pointed → Power exponent scaled →
    Spelled ⟨whole, fraction, exponent⟩ (whole ++ (pointed ++ scaled))

theorem fractionPart_of_fraction {fraction pointed : Text} (h : Fraction fraction pointed)
    (hrest : rest.head?.any Char.isDigit = false) (hdot : rest.head? ≠ some '.') :
    fractionPart (pointed ++ rest) = (fraction, pointed, rest) := by
  cases h with
  | none => exact fractionPart_of_ne hdot
  | digits hd =>
    obtain ⟨c, u, hc, hdigit⟩ := hd.head rest
    have hop : opensOperator (fraction ++ rest) = false := by
      rw [hc]
      simp only [opensOperator, Bool.or_eq_false_iff, beq_eq_false_iff_ne]
      refine ⟨⟨⟨⟨?_, ?_⟩, ?_⟩, ?_⟩, ?_⟩ <;> (rintro rfl; exact absurd hdigit (by decide))
    obtain ⟨hw, hdrop⟩ := hd.takeWhile hrest
    rw [List.cons_append, fractionPart, hop, hw, hdrop]
    rfl

theorem exponentPart_of_digits {sign power : Text} {exponent : Int} (hd : Digits power)
    (hsign : exponentSign (sign ++ (power ++ rest)) = (sign, power ++ rest))
    (hvalue : exponent = if sign = ['-'] then -(Text.digitsValue power : Int) else Text.digitsValue power)
    (hrest : rest.head?.any Char.isDigit = false) :
    exponentPart ('e' :: (sign ++ (power ++ rest))) = (exponent, 'e' :: (sign ++ power), rest) := by
  obtain ⟨hw, hdrop⟩ := hd.takeWhile hrest
  have hsome : power.isEmpty = false := by simpa using hd.some
  simp only [exponentPart, hsign, hw, hdrop, hsome, hvalue]
  rfl

theorem exponentPart_of_power {exponent : Int} {scaled : Text} (h : Power exponent scaled) (hr : Delimits rest) :
    exponentPart (scaled ++ rest) = (exponent, scaled, rest) := by
  have hrest : rest.head?.any Char.isDigit = false := hr.any (by decide)
  cases h with
  | none => exact exponentPart_of_ne ⟨hr.head_ne (by decide), hr.head_ne (by decide)⟩
  | @up power hd =>
    refine @exponentPart_of_digits rest [] power _ hd ?_ rfl hrest
    obtain ⟨c, u, hc, hdigit⟩ := hd.head rest
    rw [List.nil_append, hc]
    apply exponentSign_of_ne
    constructor <;> (intro heq; cases heq; exact absurd hdigit (by decide))
  | @down power hd => exact @exponentPart_of_digits rest ['-'] power _ hd rfl rfl hrest

/-- A numeral that something delimits is one lexeme. -/
theorem numeral_of_spelled {n : Number.Numeral} (h : Spelled n t) (hr : Delimits rest) :
    numeral (t ++ rest) = ⟨.number n.value, t, rest⟩ := by
  cases h with
  | @mk whole fraction pointed scaled exponent hw hf hp =>
    have hrest : ∀ p : Char → Bool, [',', ';', ')', ']', '\x7d'].any p = false → p 'e' = false →
        (scaled ++ rest).head?.any p = false := by
      intro p hdelimiter he
      cases hp with
      | none => exact hr.any hdelimiter
      | up | down => exact he
    have hdot : (scaled ++ rest).head? ≠ some '.' := by
      intro heq
      have := hrest (· == '.') (by decide) (by decide)
      rw [heq] at this
      cases this
    have hdigit : (pointed ++ (scaled ++ rest)).head?.any Char.isDigit = false := by
      cases hf with
      | none => exact hrest _ (by decide) (by decide)
      | digits => rfl
    obtain ⟨hwhole, hdrop⟩ := hw.takeWhile hdigit
    have hfraction := fractionPart_of_fraction hf (hrest _ (by decide) (by decide)) hdot
    unfold numeral
    rw [List.append_assoc, List.append_assoc, hwhole, hdrop, hfraction]
    simp only [exponentPart_of_power hp hr, List.append_assoc]

theorem Spelled.head {n : Number.Numeral} (h : Spelled n t) (rest : Text) :
    ∃ c u, t ++ rest = c :: u ∧ c.isDigit = true := by
  cases h with
  | mk hw =>
    rw [List.append_assoc]
    exact hw.head _

/-- The digits of a natural number spell it. -/
theorem spelled_ofNat (n : Nat) : Spelled ⟨Text.ofNat n, [], 0⟩ (Text.ofNat n) := by
  have h := Spelled.mk (digits_ofNat n) .none .none
  rwa [List.append_nil, List.append_nil] at h

theorem value_ofNat (n : Nat) : (Number.Numeral.mk (Text.ofNat n) [] 0).value = Number.nearest n 0 := by
  unfold Number.Numeral.value
  rw [List.append_nil, Text.digitsValue_ofNat]
  rfl

/-! ## The exact layout -/

open Number (Layout)

theorem spelled_pointed (ht : Digits t) (hu : Digits u) : Spelled ⟨t, u, 0⟩ (t ++ '.' :: u) := by
  have h := Spelled.mk ht (.digits hu) .none
  rwa [List.append_nil] at h

theorem exists_spelled_positional (h : Digits t) (magnitude : Int) :
    ∃ n, Spelled n (Layout.exact.positionalText t magnitude) := by
  unfold Layout.positionalText
  by_cases hsmall : magnitude ≤ 0
  · have hzeros : Digits (List.replicate (-magnitude).toNat '0' ++ t) := by
      refine ⟨fun hnil => h.some (List.append_eq_nil_iff.1 hnil).2, fun c hc => ?_⟩
      rcases List.mem_append.1 hc with hc | hc
      · exact isDigit_of_mem_zeros hc
      · exact h.all c hc
    rw [if_pos hsmall, List.append_assoc]
    exact ⟨_, spelled_pointed digits_zero hzeros⟩
  rw [if_neg hsmall]
  by_cases hlong : t.length ≤ magnitude.toNat
  · rw [if_pos hlong]
    exact ⟨_, spelled_pointed (h.append fun _ hc => isDigit_of_mem_zeros hc) digits_zero⟩
  · -- the point stands among the digits
    rw [if_neg hlong]
    have htake : t.take magnitude.toNat ≠ [] := by
      rw [ne_eq, List.take_eq_nil_iff]
      rintro (h0 | hnil)
      · omega
      · exact h.some hnil
    have hdrop : t.drop magnitude.toNat ≠ [] := by
      rw [ne_eq, List.drop_eq_nil_iff]
      exact hlong
    exact ⟨_, spelled_pointed (h.part htake fun _ => List.mem_of_mem_take)
      (h.part hdrop fun _ => List.mem_of_mem_drop)⟩

theorem exists_power (e : Int) :
    ∃ exponent, Power exponent ('e' :: (if e < 0 then ['-'] else []) ++ Text.ofNat e.natAbs) := by
  have hd := digits_ofNat e.natAbs
  split
  · exact ⟨_, .down hd⟩
  · exact ⟨_, .up hd⟩

theorem exists_spelled_scientific (h : Digits t) (magnitude : Int) :
    ∃ n, Spelled n (Layout.exact.scientificText t magnitude) := by
  obtain ⟨exponent, hp⟩ := exists_power (magnitude - 1)
  unfold Layout.scientificText
  match t, h with
  | [], h => exact (h.some rfl).elim
  | [d], h =>
    exact ⟨_, .mk h .none hp⟩
  | d :: d' :: more, h =>
    have hfirst : Digits [d] := h.part (List.cons_ne_nil _ _) (by simp)
    have hmore : Digits (d' :: more) := h.part (List.cons_ne_nil _ _) fun c hc => List.mem_cons_of_mem d hc
    have hs := Spelled.mk hfirst (.digits hmore) hp
    rw [← List.append_assoc, ← List.append_assoc] at hs
    exact ⟨_, hs⟩

/-- The size of a finite number is written as one numeral. -/
theorem exists_spelled (x : Float) : ∃ n, Spelled n (Layout.exact.sizeText x) := by
  unfold Layout.sizeText
  split
  · exact ⟨_, .mk digits_zero (.digits digits_zero) .none⟩
  · simp only
    split
    · split
      · exact exists_spelled_positional (digits_ofNat _) _
      · exact exists_spelled_scientific (digits_ofNat _) _
    · exact exists_spelled_positional (digits_ofNat _) _

end Token

end ConfigScript
