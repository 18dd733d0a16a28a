import ConfigScript.Number.Literal
import ConfigScript.Proofs.Doubles
import Mathlib.Algebra.Group.Int.Defs
/-!
# Whole numbers among doubles

A natural number is a double exactly if 53 binary digits spell it (`Short`), and then rounding,
conversion and the digits of a literal all give that double (`IsNat`). So the whole part of any double
is read back from its decimal digits (`nearest_of_counted`), and so is a whole number with its sign
(`sameNumber_nearest`, `sameNumber_neg_nearest`).
-/

namespace ConfigScript

open Float.Model (UnpackedFloat)
open Float.Model.Format (binary64)

namespace Number

/-! ## Rounding without loss -/

theorem log2_mul_pow {m : Nat} (hm : 0 < m) (i : Nat) : (m * 2 ^ i).log2 = m.log2 + i := by
  induction i with
  | zero => simp
  | succ i ih =>
    have hpos : m * 2 ^ i ≠ 0 := by
      have := Nat.mul_pos hm (Nat.two_pow_pos i)
      omega
    rw [Nat.pow_succ, ← Nat.mul_assoc, Nat.mul_comm _ 2, Nat.log2_two_mul hpos, ih, Nat.add_assoc]

theorem shift_exact (m j : Nat) :
    UnpackedFloat.ExtendedMantissa.ofMantissaAndAccuracy (m * 2 ^ j) .exact >>> j = ⟨m, false, false⟩ := by
  show Nat.repeat UnpackedFloat.ExtendedMantissa.shiftRightOne j ⟨m * 2 ^ j, false, false⟩ = _
  induction j generalizing m with
  | zero => simp [Nat.repeat]
  | succ j ih =>
    have h := ih (m * 2)
    rw [Nat.mul_assoc, Nat.mul_comm 2, ← Nat.pow_succ] at h
    show UnpackedFloat.ExtendedMantissa.shiftRightOne (Nat.repeat _ j _) = _
    rw [h]
    simp [UnpackedFloat.ExtendedMantissa.shiftRightOne]

/-- Digits that are dropped without loss leave the number as it is. -/
theorem round_exact (s : UnpackedFloat.Sign) {m : Nat} {e : Int} (hm : 0 < m) (hlog : m.log2 = 52)
    (he : -1074 ≤ e) (j : Nat) :
    UnpackedFloat.roundWithAccuracy binary64 s (m * 2 ^ j) (e - j) .exact = .finite s m e hm := by
  have hshift : ∀ i : Nat, UnpackedFloat.shiftToTargetExponent binary64 (m * 2 ^ i) (e - i) .exact =
      (⟨m, false, false⟩, e) := by
    intro i
    have htarget : binary64.targetExponent (Float.Model.totalExponent (m * 2 ^ i) (e - i)) = e := by
      have hl := log2_mul_pow hm i
      show max ((((m * 2 ^ i).log2 : Int) + 1 + (e - i)) - 53) (-1074) = e
      omega
    unfold UnpackedFloat.shiftToTargetExponent UnpackedFloat.shiftToExponent
    have hi : (e - (e - i)).toNat = i := by omega
    simp only [htarget, hi, shift_exact, Int.sub_add_cancel]
  have h0 := hshift 0
  rw [Nat.pow_zero, Nat.mul_one, Int.ofNat_zero, Int.sub_zero] at h0
  have hrounded : (⟨m, false, false⟩ : UnpackedFloat.ExtendedMantissa).roundedMantissa = m := rfl
  unfold UnpackedFloat.roundWithAccuracy
  rw [hshift j]
  dsimp only
  rw [hrounded, h0]
  exact dif_neg (Nat.ne_of_gt hm)

/-! ## Natural numbers -/

/-- 53 binary digits spell the number. -/
def Short (n : Nat) : Prop := 2 ^ n.log2 ∣ n * 2 ^ 52

/-- The unpacked form of a natural number. -/
inductive Natural : Nat → UnpackedFloat → Prop
  | zero : Natural 0 (.zero .positive)
  | finite {n m : Nat} (hm : 0 < m) :
    0 < n → m.log2 = 52 → m * 2 ^ n.log2 = n * 2 ^ 52 →
    Natural n (.finite .positive m (n.log2 - 52) hm)

theorem short_of_lt {n : Nat} (h : n < 2 ^ 53) : Short n := by
  rcases Nat.eq_zero_or_pos n with rfl | hn
  · exact ⟨0, rfl⟩
  have hlog : n.log2 < 53 := (Nat.log2_lt (by omega)).2 h
  exact Nat.dvd_mul_left_of_dvd (Nat.pow_dvd_pow 2 (by omega)) n

theorem exists_natural {n : Nat} (h : Short n) : ∃ u, Natural n u := by
  rcases Nat.eq_zero_or_pos n with rfl | hn
  · exact ⟨_, .zero⟩
  obtain ⟨m, hm⟩ := h
  rw [Nat.mul_comm (2 ^ n.log2)] at hm
  have hpos : 0 < m := by
    apply Nat.pos_of_ne_zero
    rintro rfl
    omega
  have hlog := congrArg Nat.log2 hm
  rw [log2_mul_pow hn, log2_mul_pow hpos] at hlog
  exact ⟨_, .finite hpos hn (by omega) hm.symm⟩

theorem Natural.unique {n : Nat} {u v : UnpackedFloat} (hu : Natural n u) (hv : Natural n v) : u = v := by
  cases hu with
  | zero =>
    cases hv with
    | zero => rfl
    | finite _ hn => exact absurd hn (by omega)
  | finite hm hn hlog h =>
    cases hv with
    | zero => exact absurd hn (by omega)
    | finite hm' _ _ h' =>
      cases Nat.eq_of_mul_eq_mul_right (Nat.two_pow_pos _) (h.trans h'.symm)
      rfl

theorem Natural.canonical {n : Nat} {u : UnpackedFloat} (h : Natural n u) (hn : n < 2 ^ 64) : Canonical u := by
  cases h with
  | zero => exact .zero _
  | finite hm hpos hlog =>
    have : n.log2 < 64 := (Nat.log2_lt (by omega)).2 hn
    exact .normal _ _ _ hm hlog (by omega) (by omega)

/-- How far the digits of a natural number are off their place: they are moved up or down, not both. -/
theorem Natural.moved {n m : Nat} (h : m * 2 ^ n.log2 = n * 2 ^ 52) :
    n * 2 ^ (52 - n.log2) = m * 2 ^ (n.log2 - 52) := by
  rcases Nat.le_total n.log2 52 with hle | hle
  · obtain ⟨d, hd⟩ := Nat.exists_eq_add_of_le hle
    rw [hd, Nat.pow_add, Nat.mul_comm (2 ^ n.log2), ← Nat.mul_assoc] at h
    have := Nat.eq_of_mul_eq_mul_right (Nat.two_pow_pos _) h
    rw [show 52 - n.log2 = d by omega, show n.log2 - 52 = 0 by omega, Nat.pow_zero, Nat.mul_one, this]
  · obtain ⟨d, hd⟩ := Nat.exists_eq_add_of_le hle
    rw [hd, Nat.pow_add, Nat.mul_comm (2 ^ 52), ← Nat.mul_assoc] at h
    have := Nat.eq_of_mul_eq_mul_right (Nat.two_pow_pos _) h
    rw [show 52 - n.log2 = 0 by omega, show n.log2 - 52 = d by omega, Nat.pow_zero, Nat.mul_one, this]

theorem Natural.ofNat {n : Nat} {u : UnpackedFloat} (h : Natural n u) : UnpackedFloat.ofNat binary64 n = u := by
  cases h with
  | zero => rfl
  | @finite _ m hm hn hlog hmul =>
    have hcmp : compare (n : Int) 0 = .gt := by
      rw [Int.compare_eq_gt]
      omega
    have hmoved := Natural.moved hmul
    show UnpackedFloat.normalize binary64 (n : Int) 0 .positive = _
    unfold UnpackedFloat.normalize
    rw [hcmp]
    show UnpackedFloat.round binary64 .positive n 0 = _
    have htarget : binary64.targetExponent (Float.Model.totalExponent n 0) = (n.log2 : Int) - 52 := by
      show max (((n.log2 : Int) + 1 + 0) - 53) (-1074) = _
      omega
    unfold UnpackedFloat.round UnpackedFloat.decreaseExponent
    have hshift : (0 - ((n.log2 : Int) - 52)).toNat = 52 - n.log2 := by omega
    have hexp : (0 : Int) - ((52 - n.log2 : Nat) : Int) = (n.log2 : Int) - 52 - ((n.log2 - 52 : Nat) : Int) := by omega
    dsimp only
    rw [htarget, hshift, Nat.shiftLeft_eq, hmoved, hexp]
    exact round_exact .positive hm hlog (by omega) _

theorem mul_finite (s t : UnpackedFloat.Sign) {m n : Nat} (e f : Int) (hm : 0 < m) (hn : 0 < n) :
    UnpackedFloat.mul binary64 (.finite s m e hm) (.finite t n f hn) =
      UnpackedFloat.roundWithAccuracy binary64 (s * t) (m * n) (e + f) .exact := rfl

theorem Natural.ofScientific {n : Nat} {u : UnpackedFloat} (h : Natural n u) :
    UnpackedFloat.ofScientific binary64 n 0 = u := by
  cases h with
  | zero => rfl
  | @finite _ m hm hn hlog hmul =>
    have hbits : binary64.mantissaBits = 53 := rfl
    have hspread : n <<< 53 * 10 ^ (0 : Int).toNat = m * 2 ^ (n.log2 + 1) := by
      calc n <<< 53 * 10 ^ (0 : Int).toNat = n * 2 ^ 52 * 2 := by
            rw [Nat.shiftLeft_eq, Int.toNat_zero, Nat.pow_zero, Nat.mul_one]
            omega
        _ = m * 2 ^ n.log2 * 2 := by rw [hmul]
        _ = m * 2 ^ (n.log2 + 1) := by rw [Nat.mul_assoc, ← Nat.pow_succ]
    have hexp : -((53 : Nat) : Int) + 0 = (n.log2 : Int) - 52 - ((n.log2 + 1 : Nat) : Int) := by omega
    have hnear : ¬ (0 : Int) < -((2 : Int) ^ binary64.exponentBits + (n.log2 : Int)) := by
      show ¬ (0 : Int) < -(2048 + (n.log2 : Int))
      omega
    unfold UnpackedFloat.ofScientific
    rw [dif_neg (by omega), if_neg (by decide), if_neg hnear, if_pos (by omega), mul_finite]
    rw [hbits, hspread, hexp]
    exact round_exact .positive hm hlog (by omega) _

theorem Natural.short {n : Nat} {u : UnpackedFloat} (h : Natural n u) : Short n := by
  cases h with
  | zero => exact ⟨0, rfl⟩
  | @finite _ m _ _ _ hmul => exact ⟨m, by rw [← hmul, Nat.mul_comm]⟩

/-! ## Doubles that are natural numbers -/

/-- The double is this natural number. -/
def IsNat (x : Float) (n : Nat) : Prop := Natural n x.toModel.unpack

theorem isNat_pack {n : Nat} {u : UnpackedFloat} (h : Natural n u) (hn : n < 2 ^ 64) :
    IsNat (.ofModel (.pack u)) n := by
  show Natural n (Float.Model.pack u).unpack
  rwa [unpack_pack (h.canonical hn)]

theorem isNat_ofNat {n : Nat} (h : Short n) (hn : n < 2 ^ 64) : IsNat (ofNat n) n := by
  obtain ⟨u, hu⟩ := exists_natural h
  have htoNat : n.toUInt64.toNat = n := by
    rw [Nat.toUInt64_eq, UInt64.toNat_ofNat', Nat.mod_eq_of_lt hn]
  have hx : ofNat n = .ofModel (.pack u) := by
    show Float.ofModel (.pack (UnpackedFloat.ofNat binary64 n.toUInt64.toNat)) = _
    rw [htoNat, hu.ofNat]
  rw [hx]
  exact isNat_pack hu hn

theorem isNat_zero : IsNat 0.0 0 := by
  show Natural 0 (0.0 : Float).toModel.unpack
  rw [unpack_zero]
  exact .zero

/-- Times one. -/
theorem mul_one_of_isNat {x : Float} {n : Nat} (h : IsNat x n) (hn : n < 2 ^ 64) :
    IsNat (x * 1.0) n := by
  rw [IsNat, unpack_mul, unpack_one]
  have hc := h.canonical hn
  cases h' : x.toModel.unpack with
  | finite s m e hm =>
    rw [IsNat, h'] at h
    rw [h'] at hc
    cases h with
    | finite hm hpos hlog hmul =>
    have hexp : (n.log2 : Int) - 52 + -52 = (n.log2 : Int) - 52 - ((52 : Nat) : Int) := rfl
    rw [mul_finite, hexp, round_exact _ hm hlog (by omega) 52, unpack_pack]
    · exact .finite hm hpos hlog hmul
    · exact hc
  | _ =>
    rw [IsNat, h'] at h
    first
      | cases h; done
      | cases h; exact .zero

/-- A literal of decimal digits is the number they spell. -/
theorem isNat_nearest {n : Nat} (h : Short n) (hn : n < 2 ^ 64) : IsNat (nearest n 0) n := by
  rcases Nat.eq_zero_or_pos n with rfl | hpos
  · exact isNat_zero
  have hnear : nearest n 0 = Float.ofScientific n false 0 := by
    unfold nearest
    rw [if_neg (by omega), if_neg (by decide), if_neg ?_, if_pos (Int.le_refl 0)]
    · rfl
    · show ¬ (0 : Int) + (n.log2 : Int) + 1 < -400
      omega
  rw [hnear]
  unfold Float.ofScientific
  split
  · exact mul_one_of_isNat (isNat_ofNat h hn) hn
  · obtain ⟨u, hu⟩ := exists_natural h
    have hx : Float.Model.ofScientific n 0 = .pack u := congrArg Float.Model.pack hu.ofScientific
    show IsNat (Float.ofModel (Float.Model.ofScientific n 0)) n
    rw [hx]
    exact isNat_pack hu hn

theorem IsNat.ne_nan {x : Float} {n : Nat} (h : IsNat x n) : x.toModel.unpack ≠ .notANumber := by
  intro hx
  rw [IsNat, hx] at h
  cases h

theorem IsNat.beq {x y : Float} {n : Nat} (hx : IsNat x n) (hy : IsNat y n) : (x == y) = true :=
  beq_of_unpack (Natural.unique hx hy) hx.ne_nan

theorem compare_positive {m n : Nat} {e f : Int} (hm : 0 < m) (hn : 0 < n) :
    (UnpackedFloat.finite .positive m e hm).compare (.finite .positive n f hn) =
      some ((compare e f).then (compare m n)) := rfl

theorem IsNat.le {x y : Float} {m n : Nat} (hx : IsNat x m) (hy : IsNat y n) (h : m ≤ n) : x ≤ y := by
  rw [le_iff]
  rw [IsNat] at hx hy
  generalize x.toModel.unpack = u at hx
  generalize y.toModel.unpack = v at hy
  cases hx with
  | zero => cases hy <;> rfl
  | @finite _ a ha hm _ hmul =>
    cases hy with
    | zero => omega
    | @finite _ b hb hn _ hmul' =>
      have hlog : m.log2 ≤ n.log2 := (Nat.le_log2 (by omega)).2 (Nat.le_trans (Nat.log2_self_le (by omega)) h)
      rw [compare_positive, Option.any_some, Ordering.isLE_then_iff_or, Int.compare_eq_lt, Int.compare_eq_eq]
      rcases Nat.lt_or_eq_of_le hlog with hlt | heq
      · exact .inl (by omega)
      · refine .inr ⟨by omega, ?_⟩
        have hab : a * 2 ^ n.log2 ≤ b * 2 ^ n.log2 := by
          rw [hmul', ← heq, hmul]
          exact Nat.mul_le_mul_right _ h
        rw [Nat.isLE_compare]
        exact Nat.le_of_mul_le_mul_right hab (Nat.two_pow_pos _)

theorem zero_le_of_isNat {x : Float} {n : Nat} (h : IsNat x n) : 0.0 ≤ x := isNat_zero.le h (Nat.zero_le n)

theorem IsNat.finite {x : Float} {n : Nat} (h : IsNat x n) : finite x = true := by
  rw [finite_iff]
  rw [IsNat] at h
  generalize x.toModel.unpack = u at h
  cases h <;> rfl

/-! ## Back to words -/

theorem shift_mantissa (m j : Nat) :
    (UnpackedFloat.ExtendedMantissa.ofMantissaAndAccuracy m .exact >>> j).mantissa = m / 2 ^ j := by
  show (Nat.repeat UnpackedFloat.ExtendedMantissa.shiftRightOne j ⟨m, false, false⟩).mantissa = _
  induction j with
  | zero => exact (Nat.div_one m).symm
  | succ j ih =>
    rw [Nat.pow_succ, ← Nat.div_div_eq_div_mul, ← ih]
    rfl

theorem roundToInt_eq (s : UnpackedFloat.Sign) (m : Nat) (e : Int) :
    UnpackedFloat.roundToInt s m e = s.apply (m * 2 ^ e.toNat / 2 ^ (-e).toNat : Nat) := by
  have hdown : (0 - (e - (e.toNat : Int))).toNat = (-e).toNat := by omega
  rw [← shift_mantissa]
  unfold UnpackedFloat.roundToInt UnpackedFloat.decreaseExponent UnpackedFloat.shiftToExponent
  simp only [Int.sub_zero, Nat.shiftLeft_eq, hdown]

/-- The whole part, between zero and the greatest word. -/
def wholePart : UnpackedFloat → Nat
  | .finite .positive m e _ => min (m * 2 ^ e.toNat / 2 ^ (-e).toNat) (2 ^ 64 - 1)
  | .infinity .positive => 2 ^ 64 - 1
  | _ => 0

theorem wholePart_positive {m : Nat} {e : Int} (hm : 0 < m) :
    wholePart (.finite .positive m e hm) = min (m * 2 ^ e.toNat / 2 ^ (-e).toNat) (2 ^ 64 - 1) := rfl

theorem toInt_eq (u : UnpackedFloat) : min (u.toInt 0 (2 ^ 64 - 1)).toNat (2 ^ 64 - 1) = wholePart u := by
  cases u with
  | finite s m e hm =>
    have hint : (UnpackedFloat.finite s m e hm).toInt 0 (2 ^ 64 - 1) = _ := roundToInt_eq s m e
    rw [hint]
    cases s with
    | positive => rfl
    | negative =>
      have hzero : (-((m * 2 ^ e.toNat / 2 ^ (-e).toNat : Nat) : Int)).toNat = 0 :=
        Int.toNat_of_nonpos (Int.neg_nonpos_of_nonneg (Int.natCast_nonneg _))
      exact congrArg (min · _) hzero
  | infinity s => cases s <;> rfl
  | zero | notANumber => rfl

/-- The conversion to a word takes the whole part. -/
theorem toNat_eq (x : Float) : toNat x = wholePart x.toModel.unpack := by
  rw [← toInt_eq]
  show (UInt64.ofNatClamp (x.toModel.unpack.toInt 0 (2 ^ 64 - 1)).toNat).toNat = _
  generalize (x.toModel.unpack.toInt 0 (2 ^ 64 - 1)).toNat = n
  have hsize : UInt64.size = 2 ^ 64 := rfl
  unfold UInt64.ofNatClamp
  split
  · rw [UInt64.toNat_ofNatLT]
    omega
  · rw [UInt64.toNat_ofNatLT]
    omega

/-- The conversion to a word keeps a natural number, up to the greatest word. -/
theorem toNat_eq_min {x : Float} {n : Nat} (h : IsNat x n) : toNat x = min n (2 ^ 64 - 1) := by
  rw [toNat_eq]
  rw [IsNat] at h
  generalize x.toModel.unpack = u at h
  cases h with
  | zero => rfl
  | @finite _ m hm _ _ hmul =>
    have hup : ((n.log2 : Int) - 52).toNat = n.log2 - 52 := by omega
    have hdown : (-((n.log2 : Int) - 52)).toNat = 52 - n.log2 := by omega
    rw [wholePart_positive, hup, hdown, ← Natural.moved hmul, Nat.mul_div_cancel _ (Nat.two_pow_pos _)]

theorem toNat_of_isNat {x : Float} {n : Nat} (h : IsNat x n) (hn : n < 2 ^ 64) : toNat x = n := by
  rw [toNat_eq_min h]
  omega

theorem isNat_one : IsNat 1.0 1 := by
  rw [IsNat, unpack_one]
  exact .finite (by decide) (by decide) (by decide +kernel) (by decide +kernel)

/-- From one on, the whole part is not zero. -/
theorem one_le_toNat {x : Float} (h : 1.0 ≤ x) : 1 ≤ toNat x := by
  have hc := canonical_unpack x.toModel
  rw [le_iff, unpack_one] at h
  rw [toNat_eq]
  generalize x.toModel.unpack = u at h hc
  match u with
  | .finite .positive m e hm =>
    rw [compare_positive, Option.any_some, Ordering.isLE_then_iff_or, Int.compare_eq_lt, Int.compare_eq_eq,
      Nat.isLE_compare] at h
    have hmantissa : 2 ^ 52 ≤ m := by
      rcases h with hlt | ⟨-, hle⟩
      · cases hc with
        | subnormal => omega
        | normal _ _ _ _ hlog => exact ((Nat.log2_eq_iff (by omega)).1 hlog).1
      · exact hle
    have hpos : 1 ≤ m * 2 ^ e.toNat / 2 ^ (-e).toNat := by
      rw [Nat.le_div_iff_mul_le (Nat.two_pow_pos _), Nat.one_mul]
      calc 2 ^ (-e).toNat ≤ 2 ^ 52 := Nat.pow_le_pow_right (by decide) (by omega)
        _ ≤ m := hmantissa
        _ ≤ m * 2 ^ e.toNat := Nat.le_mul_of_pos_right m (Nat.two_pow_pos _)
    rw [wholePart_positive]
    omega
  | .infinity .positive => decide
  | .finite .negative .. | .infinity .negative | .zero _ | .notANumber => exact absurd h Bool.false_ne_true

/-- A double whose whole part reaches a number is not below it. -/
theorem IsNat.le_of_le_toNat {x y : Float} {n : Nat} (hy : IsNat y n) (hpos : 0 < n) (h : n ≤ toNat x) : y ≤ x := by
  have hc := canonical_unpack x.toModel
  rw [toNat_eq] at h
  rw [le_iff]
  rw [IsNat] at hy
  generalize y.toModel.unpack = u at hy
  generalize x.toModel.unpack = v at h hc
  cases hy with
  | zero => omega
  | @finite _ a ha _ hlog hmul =>
    match v with
    | .finite .positive m e hm =>
      have hle : n * 2 ^ (-e).toNat ≤ m * 2 ^ e.toNat := by
        rw [← Nat.le_div_iff_mul_le (Nat.two_pow_pos _)]
        exact (Nat.le_min.1 h).1
      have hlogs : n.log2 + (-e).toNat ≤ m.log2 + e.toNat := by
        rw [← log2_mul_pow hpos, ← log2_mul_pow hm]
        have hne : n * 2 ^ (-e).toNat ≠ 0 := Nat.ne_of_gt (Nat.mul_pos hpos (Nat.two_pow_pos _))
        exact (Nat.le_log2 (by omega)).2 (Nat.le_trans (Nat.log2_self_le hne) hle)
      have hm52 : m.log2 ≤ 52 ∧ (m.log2 < 52 → e = -1074) := by
        cases hc with
        | subnormal _ _ _ hlog => exact ⟨by omega, fun _ => rfl⟩
        | normal _ _ _ _ hlog => exact ⟨by omega, fun hlt => by omega⟩
      rw [compare_positive, Option.any_some, Ordering.isLE_then_iff_or, Int.compare_eq_lt, Int.compare_eq_eq,
        Nat.isLE_compare]
      by_cases heq : (n.log2 : Int) - 52 = e
      · refine .inr ⟨heq, ?_⟩
        have hmoved := Natural.moved hmul
        rw [show 52 - n.log2 = (-e).toNat by omega, show n.log2 - 52 = e.toNat by omega] at hmoved
        exact Nat.le_of_mul_le_mul_right (hmoved ▸ hle) (Nat.two_pow_pos _)
      · exact .inl (by omega)
    | .infinity .positive => rfl
    | .finite .negative .. | .infinity .negative | .zero _ | .notANumber => exact absurd hpos (Nat.not_lt_of_le h)

/-- The whole part of a double has few digits, unless it is too large for a word. -/
theorem toNat_cases (x : Float) : toNat x = 2 ^ 64 - 1 ∨ Short (toNat x) ∧ toNat x < 2 ^ 64 := by
  have hc := canonical_unpack x.toModel
  rw [toNat_eq]
  generalize x.toModel.unpack = u at hc
  match u with
  | .finite .positive m e hm =>
    rw [wholePart_positive]
    by_cases hbig : 2 ^ 64 ≤ m * 2 ^ e.toNat / 2 ^ (-e).toNat
    · left
      omega
    rw [Nat.min_eq_left (by omega)]
    refine .inr ⟨?_, by omega⟩
    by_cases he : 0 < e
    · -- the digits are those of the mantissa
      rw [show (-e).toNat = 0 by omega, Nat.pow_zero, Nat.div_one]
      cases hc with
      | subnormal => omega
      | normal _ _ _ _ hlog =>
        refine ⟨m, ?_⟩
        rw [log2_mul_pow hm, hlog, Nat.pow_add, Nat.mul_comm m, Nat.mul_right_comm, Nat.mul_comm (2 ^ 52)]
    · rw [show e.toNat = 0 by omega, Nat.pow_zero, Nat.mul_one]
      exact short_of_lt (Nat.lt_of_le_of_lt (Nat.div_le_self m _) (mantissa_lt hc))
  | .infinity .positive => exact .inl rfl
  | .finite .negative .. | .infinity .negative | .zero _ | .notANumber =>
    exact .inr ⟨short_of_lt (Nat.two_pow_pos 53), Nat.two_pow_pos 64⟩

/-- The number is the whole part of a double. -/
def Counted (n : Nat) : Prop := ∃ x, toNat x = n

theorem counted_of_lt {n : Nat} (h : n < 2 ^ 53) : Counted n :=
  ⟨ofNat n, toNat_of_isNat (isNat_ofNat (short_of_lt h) (by omega)) (by omega)⟩

theorem IsNat.not_neg {x : Float} {n : Nat} (h : IsNat x n) : ¬ x < 0.0 := by
  rw [lt_iff, unpack_zero]
  rw [IsNat] at h
  generalize x.toModel.unpack = u at h
  cases h <;> exact Bool.false_ne_true

theorem toFloat_toUInt64 (x : Float) : x.toUInt64.toFloat = ofNat (toNat x) := by
  rw [ofNat, toNat, Nat.toUInt64_eq, UInt64.ofNat_toNat]

/-- Below the size from which all numbers are whole, the whole part is small. -/
theorem toNat_lt {x : Float} (h : x.abs < wholeFrom) : toNat x < 2 ^ 53 := by
  have hc := canonical_unpack x.toModel
  rw [lt_iff, unpack_abs, unpack_wholeFrom] at h
  rw [toNat_eq]
  generalize x.toModel.unpack = u at h hc
  match u with
  | .finite .positive m e hm =>
    have habs : (UnpackedFloat.finite .positive m e hm).abs = .finite .positive m e hm := rfl
    rw [habs, compare_positive, beq_iff_eq, Option.some_inj, Ordering.then_eq_lt, Int.compare_eq_lt,
      Int.compare_eq_eq, Nat.compare_eq_lt] at h
    have hm := mantissa_lt hc
    have he : e.toNat = 0 := by
      cases hc with
      | subnormal => rfl
      | normal _ _ _ _ hlog =>
        have := (Nat.log2_eq_iff (by omega)).1 hlog
        omega
    have hle := Nat.div_le_self m (2 ^ (-e).toNat)
    rw [wholePart_positive, he, Nat.pow_zero, Nat.mul_one]
    omega
  | .infinity .positive => exact absurd h Bool.false_ne_true
  | .finite .negative .. | .infinity .negative | .zero _ | .notANumber => exact Nat.two_pow_pos 53

theorem truncate_of_isNat {x : Float} {n : Nat} (h : IsNat x n) : (truncate x == x) = true := by
  have hself : (x == x) = true := beq_of_unpack rfl h.ne_nan
  unfold truncate
  split
  · next hx =>
    split
    · have hn := toNat_lt hx
      rw [toNat_eq_min h] at hn
      rw [toFloat_toUInt64, toNat_of_isNat h (by omega)]
      exact (isNat_ofNat (Natural.short h) (by omega)).beq h
    · rw [if_neg h.not_neg]
      exact hself
  · exact hself

theorem IsNat.isWhole {x : Float} {n : Nat} (h : IsNat x n) : isWhole x = true := by
  rw [Number.isWhole, h.finite, truncate_of_isNat h]
  rfl

theorem Natural.unsignedZero {n : Nat} {u : UnpackedFloat} (h : Natural n u) : unsignedZero u = u := by
  cases h <;> rfl

/-- Below the size from which all numbers are whole, a positive whole number is its whole part. -/
theorem isNat_toNat {x : Float} (hpos : 0.0 < x) (hx : x.abs < wholeFrom) (ht : (truncate x == x) = true) :
    IsNat x (toNat x) := by
  rw [truncate, if_pos hx, if_pos hpos, toFloat_toUInt64] at ht
  have hn := toNat_lt hx
  have hnat : Natural (toNat x) _ := isNat_ofNat (short_of_lt hn) (by omega)
  have hself : unsignedZero x.toModel.unpack = x.toModel.unpack := by
    rw [lt_iff, unpack_zero] at hpos
    cases hu : x.toModel.unpack with
    | zero =>
      rw [hu] at hpos
      exact absurd hpos Bool.false_ne_true
    | finite | infinity | notANumber => rfl
  have hsame := unsignedZero_of_beq ht
  rw [hnat.unsignedZero, hself] at hsame
  rwa [hsame] at hnat

/-- From there on a number has no digits behind the point. -/
theorem natural_of_large {m : Nat} {e : Int} (hm : 0 < m) (hlog : m.log2 = 52) (he : 0 ≤ e) :
    Natural (m * 2 ^ e.toNat) (.finite .positive m e hm) := by
  have hlogs : (m * 2 ^ e.toNat).log2 = 52 + e.toNat := by rw [log2_mul_pow hm, hlog]
  have hnat : Natural (m * 2 ^ e.toNat) (.finite .positive m ((m * 2 ^ e.toNat).log2 - 52) hm) := by
    refine .finite hm (Nat.mul_pos hm (Nat.two_pow_pos _)) hlog ?_
    rw [hlogs, Nat.pow_add, Nat.mul_comm (2 ^ 52), Nat.mul_assoc]
  rwa [show ((m * 2 ^ e.toNat).log2 : Int) - 52 = e by omega] at hnat

/-- A whole number from one on is a natural number. -/
theorem exists_isNat {x : Float} (h : 1.0 ≤ x) (hw : isWhole x = true) : ∃ n, 1 ≤ n ∧ IsNat x n := by
  rw [isWhole, Bool.and_eq_true, finite_iff] at hw
  obtain ⟨hf, ht⟩ := hw
  have hc := canonical_unpack x.toModel
  cases hu : x.toModel.unpack with
  | finite s m e hm =>
    have hle := (le_iff 1.0 x).1 h
    rw [unpack_one, hu] at hle
    cases s with
    | negative => exact absurd hle Bool.false_ne_true
    | positive =>
      by_cases hx : x.abs < wholeFrom
      · have hpos : 0.0 < x := by
          rw [lt_iff, unpack_zero, hu]
          rfl
        exact ⟨toNat x, one_le_toNat h, isNat_toNat hpos hx ht⟩
      · have habs : x.abs.toModel.unpack = .finite .positive m e hm := by
          rw [unpack_abs, hu]
          rfl
        -- the exponent is at least one, and only small numbers have fewer than 53 digits
        rw [lt_iff, habs, unpack_wholeFrom, compare_positive, beq_iff_eq, Option.some_inj,
          Ordering.then_eq_lt, Int.compare_eq_lt, Int.compare_eq_eq] at hx
        rw [hu] at hc
        cases hc with
        | subnormal => omega
        | normal _ _ _ _ hlog =>
          refine ⟨m * 2 ^ e.toNat, Nat.mul_pos hm (Nat.two_pow_pos _), ?_⟩
          rw [IsNat, hu]
          exact natural_of_large hm hlog (by omega)
  | zero =>
    rw [le_iff, unpack_one, hu] at h
    exact absurd h Bool.false_ne_true
  | infinity | notANumber =>
    rw [hu] at hf
    exact absurd hf Bool.false_ne_true

/-! ## Literals of whole numbers -/

/-- What is too large for a word is read as a number that is too large for it again. -/
theorem nearest_greatest : 0.0 ≤ nearest (2 ^ 64 - 1) 0 ∧ isWhole (nearest (2 ^ 64 - 1) 0) = true ∧
    toNat (nearest (2 ^ 64 - 1) 0) = 2 ^ 64 - 1 := by
  decide +kernel

/-- The whole part of a double is read from its digits. -/
theorem nearest_of_counted {n : Nat} (h : Counted n) :
    0.0 ≤ nearest n 0 ∧ isWhole (nearest n 0) = true ∧ toNat (nearest n 0) = n := by
  obtain ⟨x, rfl⟩ := h
  rcases toNat_cases x with hmax | ⟨hs, hn⟩
  · rw [hmax]
    exact nearest_greatest
  · have hx := isNat_nearest hs hn
    exact ⟨zero_le_of_isNat hx, hx.isWhole, toNat_of_isNat hx hn⟩

theorem unpack_digitsUpTo : digitsUpTo.toModel.unpack = .finite .positive (8 * 10 ^ 15) (-3) (by decide) := by
  decide +kernel

/-- Below the size at which its digits are written, a number is below the size at which all numbers are
whole, and it has a small whole part. -/
theorem small_of_digits {x : Float} {s : UnpackedFloat.Sign} {m : Nat} {e : Int} {hm : 0 < m}
    (hx : x.toModel.unpack = .finite s m e hm) (hd : x.abs < digitsUpTo) :
    x.abs < wholeFrom ∧ toNat x < 2 ^ 53 := by
  have habs : x.abs.toModel.unpack = .finite .positive m e hm := by
    rw [unpack_abs, hx]
    rfl
  have he : e ≤ 0 := by
    rw [lt_iff, habs, unpack_digitsUpTo, compare_positive, beq_iff_eq, Option.some_inj,
      Ordering.then_eq_lt, Int.compare_eq_lt, Int.compare_eq_eq] at hd
    omega
  have hlt : x.abs < wholeFrom := by
    rw [lt_iff, habs, unpack_wholeFrom, compare_positive, beq_iff_eq, Option.some_inj,
      Ordering.then_eq_lt, Int.compare_eq_lt]
    omega
  exact ⟨hlt, toNat_lt hlt⟩

/-- A number that is not negative and whole is read from the digits of its whole part, up to the
size at which its digits are written. -/
theorem sameNumber_nearest {x : Float} (hw : isWhole x = true) (hd : x.abs < digitsUpTo) (hx : ¬ x < 0.0) :
    Value.sameNumber (nearest (toNat x) 0) x = true := by
  rw [isWhole, Bool.and_eq_true, finite_iff] at hw
  obtain ⟨hf, ht⟩ := hw
  rw [sameNumber_iff]
  cases hu : x.toModel.unpack with
  | zero s =>
    have hn : toNat x = 0 := by
      rw [toNat_eq, hu]
      rfl
    rw [hn]
    show unsignedZero (0.0 : Float).toModel.unpack = _
    rw [unpack_zero]
    rfl
  | finite s m e hm =>
    obtain ⟨hwhole, hn⟩ := small_of_digits hu hd
    have hpos : 0.0 < x := by
      rw [lt_iff, unpack_zero, hu] at hx ⊢
      cases s with
      | positive => rfl
      | negative => exact (hx rfl).elim
    have hsame : (nearest (toNat x) 0).toModel.unpack = x.toModel.unpack :=
      Natural.unique (isNat_nearest (short_of_lt hn) (by omega)) (isNat_toNat hpos hwhole ht)
    rw [hsame, hu]
  | infinity s =>
    rw [hu] at hf
    cases hf
  | notANumber =>
    rw [hu] at hf
    cases hf

/-- A negative whole number is read from its sign and the digits of its size. -/
theorem sameNumber_neg_nearest {x : Float} (hw : isWhole x = true) (hd : x.abs < digitsUpTo) (hx : x < 0.0) :
    Value.sameNumber (-nearest (toNat (-x)) 0) x = true := by
  rw [isWhole, Bool.and_eq_true, finite_iff] at hw
  obtain ⟨hf, ht⟩ := hw
  rw [sameNumber_iff]
  have hneg : ∃ m e hm, x.toModel.unpack = .finite .negative m e hm := by
    rw [lt_iff, unpack_zero] at hx
    generalize x.toModel.unpack = u at hx hf
    cases u with
    | finite s m e hm =>
      cases s with
      | negative => exact ⟨m, e, hm, rfl⟩
      | positive => cases hx
    | infinity => cases hf
    | zero => cases hx
    | notANumber => cases hf
  obtain ⟨m, e, hm, hu⟩ := hneg
  have hu' : (-x).toModel.unpack = .finite .positive m e hm := by
    rw [unpack_neg, hu]
    rfl
  have hsize : (-x).abs < digitsUpTo := by
    rw [lt_iff, unpack_abs] at hd ⊢
    rw [hu']
    rwa [hu] at hd
  obtain ⟨hwhole, -⟩ := small_of_digits hu hd
  obtain ⟨-, hn⟩ := small_of_digits hu' hsize
  have hnpos : ¬ 0.0 < x := by
    rw [lt_iff, unpack_zero, hu]
    exact Bool.false_ne_true
  rw [truncate, if_pos hwhole, if_neg hnpos, if_pos hx, toFloat_toUInt64] at ht
  have hs := short_of_lt hn
  have hsame : (nearest (toNat (-x)) 0).toModel.unpack = (ofNat (toNat (-x))).toModel.unpack :=
    Natural.unique (isNat_nearest hs (by omega)) (isNat_ofNat hs (by omega))
  rw [← unsignedZero_of_beq ht, unpack_neg, unpack_neg, hsame]

end Number

end ConfigScript
