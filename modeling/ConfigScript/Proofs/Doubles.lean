import ConfigScript.Proofs.Equivalence
import ConfigScript.Value.Render
import Mathlib.Algebra.Group.Nat.Defs
/-!
# Doubles and their words

A double is a word of sign, exponent and fraction. Unpacked it is `Canonical`, and what is canonical
survives packing (`unpack_pack`), as a word does (`pack_unpack`). From this follow comparisons, signs
and magnitudes of doubles in their unpacked forms.
-/

namespace ConfigScript

open Float.Model (UnpackedFloat)
open Float.Model.Format (binary64)

namespace Number

/-! ## Words -/

theorem sign_toBitVec (s : UnpackedFloat.Sign) : UnpackedFloat.Sign.ofBitVec s.toBitVec = s := by
  cases s <;> rfl

instance signDecidableEq : DecidableEq UnpackedFloat.Sign := fun s t =>
  decidable_of_iff (s.toBitVec = t.toBitVec) ⟨fun h => by rw [← sign_toBitVec s, h, sign_toBitVec t], congrArg _⟩

instance unpackedDecidableEq : DecidableEq UnpackedFloat
  | .finite s m e _, .finite t n f _ => decidable_of_iff (s = t ∧ m = n ∧ e = f) (by rw [UnpackedFloat.finite.injEq])
  | .zero s, .zero t => decidable_of_iff (s = t) (by rw [UnpackedFloat.zero.injEq])
  | .infinity s, .infinity t => decidable_of_iff (s = t) (by rw [UnpackedFloat.infinity.injEq])
  | .notANumber, .notANumber => isTrue rfl
  | .finite .., .zero _ | .finite .., .infinity _ | .finite .., .notANumber => isFalse UnpackedFloat.noConfusion
  | .zero _, .finite .. | .zero _, .infinity _ | .zero _, .notANumber => isFalse UnpackedFloat.noConfusion
  | .infinity _, .finite .. | .infinity _, .zero _ | .infinity _, .notANumber => isFalse UnpackedFloat.noConfusion
  | .notANumber, .finite .. | .notANumber, .zero _ | .notANumber, .infinity _ => isFalse UnpackedFloat.noConfusion

theorem toBitVec_sign (b : BitVec 1) : (UnpackedFloat.Sign.ofBitVec b).toBitVec = b := by
  revert b
  decide

/-- A word is put together again from its sign, its exponent and its fraction. -/
theorem packComponents_unpack (b : BitVec binary64.numBits) :
    UnpackedFloat.packComponents binary64 (.ofBitVec (UnpackedFloat.unpackSign b))
      (UnpackedFloat.unpackExponent b) (UnpackedFloat.unpackMantissa b) = b := by
  show (UnpackedFloat.Sign.ofBitVec (b.extractLsb' 63 1)).toBitVec ++ b.extractLsb' 52 11 ++ b.extractLsb' 0 52 = b
  have hhigh : 63 = 52 + 11 := rfl
  have hlow : 52 = 0 + 52 := rfl
  rw [toBitVec_sign, BitVec.extractLsb'_append_extractLsb'_eq_extractLsb' hhigh,
    BitVec.extractLsb'_append_extractLsb'_eq_extractLsb' hlow]
  exact BitVec.extractLsb'_eq_self

theorem unpackSign_packComponents (s : UnpackedFloat.Sign) (e : BitVec 11) (f : BitVec 52) :
    UnpackedFloat.unpackSign (UnpackedFloat.packComponents binary64 s e f) = s.toBitVec := by
  show (s.toBitVec ++ e ++ f).extractLsb' 63 1 = s.toBitVec
  rw [BitVec.extractLsb'_append_eq_of_le (by decide)]
  exact BitVec.extractLsb'_append_eq_left

theorem append_one (f : BitVec 52) : (1#1 ++ f).toNat = 2 ^ 52 + f.toNat := by
  rw [BitVec.toNat_append, ← Nat.shiftLeft_add_eq_or_of_lt f.isLt]
  rfl

/-- The numbers that the fields of a word spell. -/
theorem unpack_packComponents (s : UnpackedFloat.Sign) (e : BitVec 11) (f : BitVec 52) :
    UnpackedFloat.unpack binary64 (UnpackedFloat.packComponents binary64 s e f) =
      if e = -1#11 then if f = 0#52 then .infinity s else .notANumber
      else if e = 0#11 then
        if h : f = 0#52 then .zero s
        else .finite s f.toNat (-1074) (by simpa [BitVec.toNat_pos, BitVec.pos_iff_ne_zero] using h)
      else .finite s (2 ^ 52 + f.toNat) (e.toNat - 1075) (by omega) := by
  have hfraction : UnpackedFloat.unpackMantissa (UnpackedFloat.packComponents binary64 s e f) = f :=
    UnpackedFloat.unpackMantissa_packComponents
  unfold UnpackedFloat.unpack
  dsimp only
  rw [UnpackedFloat.unpackExponent_packComponents, unpackSign_packComponents, sign_toBitVec]
  by_cases hlast : e = -1#11
  · rw [if_pos hlast, if_pos hlast, hfraction]
  rw [if_neg hlast, if_neg hlast]
  by_cases hfirst : e = 0#11
  · subst hfirst
    rw [if_pos rfl, if_pos rfl]
    by_cases hf : f = 0#52
    · rw [dif_pos hf, dif_pos (hfraction.trans hf)]
    · rw [dif_neg hf, dif_neg fun h => hf (hfraction.symm.trans h), UnpackedFloat.finite.injEq]
      exact ⟨rfl, congrArg BitVec.toNat hfraction, rfl⟩
  · rw [if_neg hfirst, if_neg hfirst, UnpackedFloat.finite.injEq, hfraction]
    exact ⟨rfl, append_one f, rfl⟩

/-- A double as it is unpacked: `m · 2 ^ e` with 53 digits, or with the least exponent. -/
inductive Canonical : UnpackedFloat → Prop
  | notANumber : Canonical .notANumber
  | infinity (s : UnpackedFloat.Sign) : Canonical (.infinity s)
  | zero (s : UnpackedFloat.Sign) : Canonical (.zero s)
  | subnormal (s : UnpackedFloat.Sign) (m : Nat) (hm : 0 < m) : m.log2 < 52 → Canonical (.finite s m (-1074) hm)
  | normal (s : UnpackedFloat.Sign) (m : Nat) (e : Int) (hm : 0 < m) :
    m.log2 = 52 → -1074 ≤ e → e ≤ 971 → Canonical (.finite s m e hm)

theorem mantissa_lt {s : UnpackedFloat.Sign} {m : Nat} {e : Int} {hm : 0 < m} (h : Canonical (.finite s m e hm)) :
    m < 2 ^ 53 := by
  cases h with
  | subnormal _ _ _ hlog => exact Nat.lt_trans ((Nat.log2_lt (by omega)).1 hlog) (by decide)
  | normal _ _ _ _ hlog => exact ((Nat.log2_eq_iff (by omega)).1 hlog).2

theorem canonical_unpack (x : Float.Model) : Canonical x.unpack := by
  show Canonical (UnpackedFloat.unpack binary64 x.toBits.toBitVec)
  rw [← packComponents_unpack x.toBits.toBitVec, unpack_packComponents]
  generalize @UnpackedFloat.unpackExponent binary64 x.toBits.toBitVec = e
  generalize @UnpackedFloat.unpackMantissa binary64 x.toBits.toBitVec = f
  have hf : f.toNat < 2 ^ 52 := f.isLt
  by_cases he : e = -1#11
  · rw [if_pos he]
    by_cases h : f = 0#52
    · rw [if_pos h]
      exact .infinity _
    · rw [if_neg h]
      exact .notANumber
  rw [if_neg he]
  by_cases he0 : e = 0#11
  · rw [if_pos he0]
    by_cases h : f = 0#52
    · rw [dif_pos h]
      exact .zero _
    · rw [dif_neg h]
      refine .subnormal _ _ _ ?_
      exact (Nat.log2_lt (by simpa using (BitVec.toNat_ne_iff_ne (y := 0#52)).2 h)).2 hf
  · rw [if_neg he0]
    have h0 : e.toNat ≠ 0 := by simpa using (BitVec.toNat_ne_iff_ne (y := 0#11)).2 he0
    have h1 : e.toNat ≠ 2047 := by simpa using (BitVec.toNat_ne_iff_ne (y := -1#11)).2 he
    have h2 : e.toNat < 2048 := e.isLt
    refine .normal _ _ _ _ ?_ (by omega) (by omega)
    rw [Nat.log2_eq_iff (by omega)]
    omega

/-- The word of a number with fewer than 53 digits has the exponent zero. -/
theorem pack_subnormal {m : Nat} (s : UnpackedFloat.Sign) (hm : 0 < m) (hlog : m.log2 < 52) :
    UnpackedFloat.pack binary64 (.finite s m (-1074) hm) =
      UnpackedFloat.packComponents binary64 s 0#11 (BitVec.ofNat 52 m) := by
  unfold UnpackedFloat.pack
  refine (if_neg (by decide)).trans (if_neg ?_)
  show ¬ m.log2 + 1 = 53
  omega

/-- The word of a number with 53 digits leaves the first of them out. -/
theorem pack_normal {m : Nat} {e : Int} (s : UnpackedFloat.Sign) (hm : 0 < m) (hlog : m.log2 = 52) (hhi : e ≤ 971) :
    UnpackedFloat.pack binary64 (.finite s m e hm) =
      UnpackedFloat.packComponents binary64 s (BitVec.ofNat 11 (e + 1075).toNat) (BitVec.ofNat 52 m) := by
  have hbiased : (e + (binary64.exponentBias : Int) + (binary64.mantissaBitsWithoutImplicit : Int)).toNat =
      (e + 1075).toNat := by
    show (e + 1023 + 52).toNat = _
    omega
  unfold UnpackedFloat.pack
  simp only [hbiased]
  refine (if_neg ?_).trans (if_pos ?_)
  · show ¬ 2048 ≤ (e + 1075).toNat + 1
    omega
  · show m.log2 + 1 = 53
    omega

theorem unpack_pack {u : UnpackedFloat} (h : Canonical u) : (Float.Model.pack u).unpack = u := by
  show UnpackedFloat.unpack binary64 (UnpackedFloat.pack binary64 u) = u
  cases h with
  | notANumber => rfl
  | infinity s => cases s <;> rfl
  | zero s => cases s <;> rfl
  | subnormal s m hm hlog =>
    have hlt : m < 2 ^ 52 := (Nat.log2_lt (by omega)).1 hlog
    have hmod : (BitVec.ofNat 52 m).toNat = m := by
      rw [BitVec.toNat_ofNat, Nat.mod_eq_of_lt hlt]
    have hne : BitVec.ofNat 52 m ≠ 0#52 := by
      intro heq
      rw [heq] at hmod
      simp at hmod
      omega
    rw [pack_subnormal s hm hlog, unpack_packComponents, if_neg (by decide), if_pos rfl, dif_neg hne,
      UnpackedFloat.finite.injEq]
    exact ⟨rfl, hmod, rfl⟩
  | normal s m e hm hlog hlo hhi =>
    have hm' := (Nat.log2_eq_iff (by omega)).1 hlog
    have hexp : (BitVec.ofNat 11 (e + 1075).toNat).toNat = (e + 1075).toNat := by
      rw [BitVec.toNat_ofNat, Nat.mod_eq_of_lt (by omega)]
    have hfrac : (BitVec.ofNat 52 m).toNat = m - 2 ^ 52 := by
      rw [BitVec.toNat_ofNat]
      omega
    have hne : BitVec.ofNat 11 (e + 1075).toNat ≠ -1#11 ∧ BitVec.ofNat 11 (e + 1075).toNat ≠ 0#11 := by
      constructor
      all_goals
        intro heq
        rw [heq] at hexp
        simp at hexp
        omega
    rw [pack_normal s hm hlog hhi, unpack_packComponents, if_neg hne.1, if_neg hne.2, UnpackedFloat.finite.injEq]
    have h₁ : 2 ^ 52 + (BitVec.ofNat 52 m).toNat = m := by omega
    have h₂ : ((BitVec.ofNat 11 (e + 1075).toNat).toNat : Int) - 1075 = e := by omega
    exact ⟨rfl, h₁, h₂⟩

theorem pack_unpack (x : Float.Model) : Float.Model.pack x.unpack = x := by
  obtain ⟨bits, hv⟩ := x
  suffices h : UnpackedFloat.pack binary64 (UnpackedFloat.unpack binary64 bits.toBitVec) = bits.toBitVec by
    unfold Float.Model.pack Float.Model.unpack
    rw [Float.Model.mk.injEq]
    exact congrArg UInt64.ofBitVec h
  replace hv := hv.eq_packedNaN
  have hword := packComponents_unpack bits.toBitVec
  rw [← hword] at hv ⊢
  generalize UnpackedFloat.Sign.ofBitVec (@UnpackedFloat.unpackSign binary64 bits.toBitVec) = s at hv ⊢
  generalize @UnpackedFloat.unpackExponent binary64 bits.toBitVec = e at hv ⊢
  generalize @UnpackedFloat.unpackMantissa binary64 bits.toBitVec = f at hv ⊢
  rw [UnpackedFloat.unpackExponent_packComponents, UnpackedFloat.unpackMantissa_packComponents] at hv
  rw [unpack_packComponents]
  have hf : f.toNat < 2 ^ 52 := f.isLt
  by_cases he : e = -1#11
  · subst he
    rw [if_pos rfl]
    by_cases hf0 : f = 0#52
    · subst hf0
      rfl
    · rw [if_neg hf0]
      exact (hv rfl hf0).symm
  rw [if_neg he]
  by_cases he0 : e = 0#11
  · subst he0
    rw [if_pos rfl]
    by_cases hf0 : f = 0#52
    · subst hf0
      rfl
    · rw [dif_neg hf0]
      have hpos : f.toNat ≠ 0 := by simpa using (BitVec.toNat_ne_iff_ne (y := 0#52)).2 hf0
      rw [pack_subnormal s _ ((Nat.log2_lt hpos).2 hf), BitVec.ofNat_toNat, BitVec.setWidth_eq]
  · rw [if_neg he0]
    have h1 : e.toNat ≠ 2047 := by simpa using (BitVec.toNat_ne_iff_ne (y := -1#11)).2 he
    have h2 : e.toNat < 2048 := e.isLt
    have hlog : (2 ^ 52 + f.toNat).log2 = 52 := by
      rw [Nat.log2_eq_iff (by omega)]
      omega
    have hexp : BitVec.ofNat 11 ((e.toNat : Int) - 1075 + 1075).toNat = e := by
      rw [Int.sub_add_cancel, Int.toNat_natCast, BitVec.ofNat_toNat, BitVec.setWidth_eq]
    have hfrac : BitVec.ofNat 52 (2 ^ 52 + f.toNat) = f := by
      apply BitVec.eq_of_toNat_eq
      rw [BitVec.toNat_ofNat]
      omega
    rw [pack_normal s _ hlog (by omega), hexp, hfrac]

/-- A double is known by its unpacked form. -/
theorem eq_of_unpack {x y : Float} (h : x.toModel.unpack = y.toModel.unpack) : x = y := by
  have hback : ∀ z : Float, Float.ofModel (.pack z.toModel.unpack) = z := fun z => by rw [pack_unpack]
  rw [← hback x, h, hback]

/-! ## Operations -/

theorem unpack_add (x y : Float) : (x + y).toModel.unpack =
    (Float.Model.pack (.add binary64 x.toModel.unpack y.toModel.unpack)).unpack := rfl

theorem unpack_mul (x y : Float) : (x * y).toModel.unpack =
    (Float.Model.pack (.mul binary64 x.toModel.unpack y.toModel.unpack)).unpack := rfl

theorem unpack_div (x y : Float) : (x / y).toModel.unpack =
    (Float.Model.pack (.div binary64 x.toModel.unpack y.toModel.unpack)).unpack := rfl

/-! ## Comparisons -/

theorem le_iff (x y : Float) :
    x ≤ y ↔ (x.toModel.unpack.compare y.toModel.unpack).any (·.isLE) = true := decide_eq_true_iff

theorem lt_iff (x y : Float) :
    x < y ↔ (x.toModel.unpack.compare y.toModel.unpack == some .lt) = true := decide_eq_true_iff

theorem beq_of_unpack {x y : Float} (h : x.toModel.unpack = y.toModel.unpack)
    (hx : x.toModel.unpack ≠ .notANumber) : (x == y) = true := by
  show (x.toModel.unpack.compare y.toModel.unpack == some .eq) = true
  rw [← h]
  cases hu : x.toModel.unpack with
  | notANumber => exact (hx hu).elim
  | infinity s => cases s <;> rfl
  | zero s => rfl
  | finite s m e hm =>
    rw [beq_iff_eq, finite_compare_eq]
    exact ⟨rfl, rfl, rfl⟩

/-! ## Signs and magnitudes -/

theorem unpack_zero : (0.0 : Float).toModel.unpack = .zero .positive := by decide +kernel

theorem unpack_one : (1.0 : Float).toModel.unpack = .finite .positive (2 ^ 52) (-52) (by decide) := by
  decide +kernel

theorem unpack_infinity : infinity.toModel.unpack = .infinity .positive := by decide +kernel

theorem unpack_wholeFrom : wholeFrom.toModel.unpack = .finite .positive (2 ^ 52) 1 (by decide) := by
  decide +kernel

theorem unpack_abs (x : Float) : x.abs.toModel.unpack = x.toModel.unpack.abs := by
  show (Float.Model.pack x.toModel.unpack.abs).unpack = _
  refine unpack_pack ?_
  have h := canonical_unpack x.toModel
  generalize x.toModel.unpack = u at h
  cases h with
  | notANumber => exact .notANumber
  | infinity => exact .infinity _
  | zero => exact .zero _
  | subnormal _ m hm h => exact .subnormal _ m hm h
  | normal _ m e hm h hlo hhi => exact .normal _ m e hm h hlo hhi

theorem unpack_neg (x : Float) : (-x).toModel.unpack = x.toModel.unpack.neg := by
  show (Float.Model.pack x.toModel.unpack.neg).unpack = _
  refine unpack_pack ?_
  have h := canonical_unpack x.toModel
  generalize x.toModel.unpack = u at h
  cases h with
  | notANumber => exact .notANumber
  | infinity => exact .infinity _
  | zero => exact .zero _
  | subnormal _ m hm h => exact .subnormal _ m hm h
  | normal _ m e hm h hlo hhi => exact .normal _ m e hm h hlo hhi

theorem finite_iff (x : Float) : finite x = true ↔ x.toModel.unpack.isFinite = true := by
  rw [finite, decide_eq_true_iff, lt_iff, unpack_abs, unpack_infinity]
  cases x.toModel.unpack with
  | finite s m e hm => exact iff_of_true rfl rfl
  | zero s => exact iff_of_true rfl rfl
  | infinity s => exact iff_of_false Bool.false_ne_true Bool.false_ne_true
  | notANumber => exact iff_of_false Bool.false_ne_true Bool.false_ne_true


theorem unsignedZero_of_beq {x y : Float} (h : (x == y) = true) :
    unsignedZero x.toModel.unpack = unsignedZero y.toModel.unpack :=
  (sameNumber_iff x y).1 (by rw [Value.sameNumber, h, Bool.true_or])

theorem hasMinus_iff (x : Float) : Layout.hasMinus x = true ↔
    UnpackedFloat.Sign.ofBitVec (@UnpackedFloat.unpackSign binary64 x.toModel.toBits.toBitVec) =
      .negative := by
  obtain ⟨⟨bits, hv⟩⟩ := x
  show (bits >>> 63 == 1) = true ↔ UnpackedFloat.Sign.ofBitVec (bits.toBitVec.extractLsb 63 63) = .negative
  have hlt := bits.toNat_lt
  have hleft : (bits >>> 63 == 1) = true ↔ bits.toNat / 2 ^ 63 = 1 := by
    rw [beq_iff_eq, ← UInt64.toNat_inj, UInt64.toNat_shiftRight, Nat.shiftRight_eq_div_pow]
    rfl
  have hright : UnpackedFloat.Sign.ofBitVec (bits.toBitVec.extractLsb 63 63) = .negative ↔
      bits.toNat / 2 ^ 63 ≠ 0 := by
    have htop : (bits.toBitVec.extractLsb 63 63).toNat = bits.toNat / 2 ^ 63 := by
      rw [BitVec.extractLsb_toNat, Nat.shiftRight_eq_div_pow]
      show bits.toNat / 2 ^ 63 % 2 = _
      omega
    unfold UnpackedFloat.Sign.ofBitVec
    split
    · next h =>
      rw [← htop, h]
      exact iff_of_false nofun (fun hne => hne rfl)
    · next h =>
      rw [← htop]
      exact iff_of_true rfl fun h0 => h (BitVec.eq_of_toNat_eq h0)
  rw [hleft, hright]
  omega

/-- What is no number, or has this sign. -/
inductive Signed (s : UnpackedFloat.Sign) : UnpackedFloat → Prop
  | notANumber : Signed s .notANumber
  | infinity : Signed s (.infinity s)
  | zero : Signed s (.zero s)
  | finite (m : Nat) (e : Int) (hm : 0 < m) : Signed s (.finite s m e hm)

theorem signed_unpack (s : UnpackedFloat.Sign) (e : BitVec 11) (f : BitVec 52) :
    Signed s (UnpackedFloat.unpack binary64 (UnpackedFloat.packComponents binary64 s e f)) := by
  rw [unpack_packComponents]
  by_cases he : e = -1#11
  · rw [if_pos he]
    by_cases hf : f = 0#52
    · rw [if_pos hf]
      exact .infinity
    · rw [if_neg hf]
      exact .notANumber
  rw [if_neg he]
  by_cases he0 : e = 0#11
  · rw [if_pos he0]
    by_cases hf : f = 0#52
    · rw [dif_pos hf]
      exact .zero
    · rw [dif_neg hf]
      exact .finite _ _ _
  · rw [if_neg he0]
    exact .finite _ _ _

/-- What a number with this sign is without and with it. -/
theorem sign_unpack (x : Float) :
    (Layout.hasMinus x = false → x.toModel.unpack.abs = x.toModel.unpack) ∧
      (Layout.hasMinus x = true → x.toModel.unpack.abs.neg = x.toModel.unpack) := by
  have hs := hasMinus_iff x
  have hu : x.toModel.unpack = UnpackedFloat.unpack binary64 x.toModel.toBits.toBitVec := rfl
  rw [hu, ← packComponents_unpack x.toModel.toBits.toBitVec]
  generalize UnpackedFloat.Sign.ofBitVec (@UnpackedFloat.unpackSign binary64 x.toModel.toBits.toBitVec) = s at hs ⊢
  have hsigned := signed_unpack s (@UnpackedFloat.unpackExponent binary64 x.toModel.toBits.toBitVec)
    (@UnpackedFloat.unpackMantissa binary64 x.toModel.toBits.toBitVec)
  generalize UnpackedFloat.unpack binary64 (UnpackedFloat.packComponents binary64 s _ _) = u at hsigned ⊢
  cases s with
  | positive =>
    refine ⟨fun _ => ?_, fun h => absurd (hs.1 h) (by decide)⟩
    cases hsigned <;> rfl
  | negative =>
    refine ⟨fun h => absurd (hs.2 rfl) (by simp [h]), fun _ => ?_⟩
    cases hsigned <;> rfl

theorem abs_of_no_minus {x : Float} (h : Layout.hasMinus x = false) : x.abs = x :=
  eq_of_unpack ((unpack_abs x).trans ((sign_unpack x).1 h))

theorem sameNumber_neg_abs {x : Float} (h : Layout.hasMinus x = true) :
    Value.sameNumber (-x.abs) x = true := by
  rw [sameNumber_iff, unpack_neg, unpack_abs, (sign_unpack x).2 h]

end Number

end ConfigScript
