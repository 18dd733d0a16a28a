import ConfigScript.Proofs.Actions
import ConfigScript.Proofs.RoundTrip
/-!
# Ranges

A range is empty, is too long, or begins with its start (`Value.range_first`): zero times a finite step is a
zero, and a zero leaves a number as it is (`Number.add_zero_beq`). The check on the ends lets an infinite
step pass. Zero times it is no number, so such a range is one NaN (`Runner.range_infinite_step`).
-/

namespace ConfigScript

open Float.Model (UnpackedFloat)

namespace Number

/-! ## Zeros and infinities -/

variable {x y z : Float} {s : UnpackedFloat.Sign}

/-- A zero of either sign leaves every number as it is, up to the sign of zero. -/
theorem unsignedZero_add_zero (hz : z.toModel.unpack = .zero s) :
    unsignedZero (x + z).toModel.unpack = unsignedZero x.toModel.unpack := by
  have hc := canonical_unpack x.toModel
  rw [unpack_add, hz]
  cases hu : x.toModel.unpack with
  | finite | infinity | notANumber =>
    rw [hu] at hc
    exact congrArg unsignedZero (unpack_pack hc)
  | zero t => cases s <;> cases t <;> rfl

theorem add_zero_beq (hx : x.isNaN = false) (hz : z.toModel.unpack = .zero s) : (x + z == x) = true := by
  have hsame := (sameNumber_iff _ _).2 (unsignedZero_add_zero (x := x) hz)
  rwa [Value.sameNumber, hx, Bool.and_false, Bool.or_false] at hsame

theorem isNaN_add (hy : y.isNaN = true) : (x + y).isNaN = true := by
  rw [isNaN_iff] at hy ⊢
  rw [unpack_add, hy]
  cases x.toModel.unpack <;> exact unpack_pack .notANumber

theorem unpack_ofNat_zero : (ofNat 0).toModel.unpack = .zero .positive := by decide +kernel

/-- Zero times a number is a zero. -/
theorem unpack_zero_mul (hx : finite x = true) : ∃ s, (ofNat 0 * x).toModel.unpack = .zero s := by
  rw [finite_iff] at hx
  rw [unpack_mul, unpack_ofNat_zero]
  generalize x.toModel.unpack = u at hx
  cases u with
  | finite t | zero t => exact ⟨_, unpack_pack (.zero _)⟩
  | infinity | notANumber => exact absurd hx Bool.false_ne_true

/-- Zero times an infinity is no number. -/
theorem isNaN_zero_mul (hx : x.toModel.unpack = .infinity s) : (ofNat 0 * x).isNaN = true := by
  rw [isNaN_iff, unpack_mul, unpack_ofNat_zero, hx]
  exact unpack_pack .notANumber

/-- A quotient by an infinity that is a number is a zero. -/
theorem div_infinity (hy : y.toModel.unpack = .infinity s) (h : (x / y).isNaN = false) :
    x / y = 0.0 ∨ x / y = -0.0 := by
  have hzero : ∃ t, (x / y).toModel.unpack = .zero t := by
    rw [Bool.eq_false_iff, Ne, isNaN_iff] at h
    rw [unpack_div, hy] at h ⊢
    generalize x.toModel.unpack = u at h
    cases u with
    | finite t | zero t => exact ⟨_, unpack_pack (.zero _)⟩
    | infinity | notANumber => exact absurd (unpack_pack .notANumber) h
  obtain ⟨t, ht⟩ := hzero
  cases t with
  | positive => exact .inl (eq_of_unpack (ht.trans unpack_zero.symm))
  | negative =>
    refine .inr (eq_of_unpack (ht.trans ?_))
    rw [unpack_neg, unpack_zero]
    rfl

theorem isNaN_of_finite (h : finite x = true) : x.isNaN = false := by
  rw [Bool.eq_false_iff, Ne, isNaN_iff]
  intro hu
  rw [finite_iff, hu] at h
  exact absurd h Bool.false_ne_true

theorem beq_of_isNaN (h : x.isNaN = true) : (x == y) = false := by
  show (x.toModel.unpack.compare y.toModel.unpack == some .eq) = false
  rw [(isNaN_iff x).1 h]
  cases y.toModel.unpack <;> rfl

/-- What divides to a number and is not finite is an infinity. -/
theorem exists_infinity (hf : finite y = false) (h : (x / y).isNaN = false) : ∃ s, y.toModel.unpack = .infinity s := by
  rw [Bool.eq_false_iff, Ne, finite_iff] at hf
  rw [Bool.eq_false_iff, Ne, isNaN_iff, unpack_div] at h
  generalize y.toModel.unpack = u at hf h
  cases u with
  | infinity s => exact ⟨s, rfl⟩
  | finite | zero => exact absurd rfl hf
  | notANumber =>
    refine absurd ?_ h
    cases x.toModel.unpack <;> exact unpack_pack .notANumber

end Number

namespace Value

variable {start step stop : Float} {v : Value}

/-! ## The first element -/

theorem progression_first (start step : Float) (steps : Nat) (h : 0 < (progression start step steps).size) :
    (progression start step steps)[0] = start + Number.ofNat 0 * step :=
  Array.getElem_ofFn _

/-- An infinite step makes no step. -/
theorem steps_infinite (hf : Number.finite step = false) (h : ((stop - start) / step).isNaN = false) :
    Number.toNat (Number.floor ((stop - start) / step + rangeSlack)) = 0 := by
  obtain ⟨s, hs⟩ := Number.exists_infinity hf h
  rcases Number.div_infinity hs h with hzero | hzero
  · rw [hzero]
    decide +kernel
  · rw [hzero]
    decide +kernel

theorem ofMatrix_progression (start step : Float) :
    ofMatrix (.row (progression start step 0)) = .double (start + Number.ofNat 0 * step) := by
  simp [ofMatrix, Matrix.scalar?, Matrix.row, Matrix.get, progression]

/-- A range is too long, empty, or has elements. These are no more than a matrix may hold, and the
first is the start exactly if the step is finite. With an infinite step the range is one NaN. -/
theorem range_first (start step stop : Float) :
    range start step stop = .error .rangeTooLong ∨ range start step stop = .ok (.matrix (.row #[])) ∨
    ∃ (xs : Array Float) (h : 0 < xs.size), xs.size ≤ Matrix.maxElements ∧
      range start step stop = .ok (.ofMatrix (.row xs)) ∧ (xs[0] == start) = Number.finite step ∧
      (Number.finite step = false → range start step stop = .ok (.double xs[0]) ∧ xs[0].isNaN = true) := by
  rcases range_cases start step stop with hempty | hlong | ⟨hstart, hsteps, steps, hlt, hcount, hrange⟩
  · exact .inr (.inl hempty)
  · exact .inl hlong
  · have hsize := size_progression start step steps
    have hpos : 0 < (progression start step steps).size := by omega
    refine .inr (.inr ⟨progression start step steps, hpos, by omega, hrange, ?_⟩)
    -- the start and zero times the step, which is a zero or no number
    rw [progression_first start step steps hpos, hrange]
    cases hf : Number.finite step with
    | true =>
      obtain ⟨s, hs⟩ := Number.unpack_zero_mul hf
      exact ⟨Number.add_zero_beq (Number.isNaN_of_finite hstart) hs, nofun⟩
    | false =>
      obtain ⟨s, hs⟩ := Number.exists_infinity hf hsteps
      have hnan : (start + Number.ofNat 0 * step).isNaN = true := Number.isNaN_add (Number.isNaN_zero_mul hs)
      refine ⟨Number.beq_of_isNaN hnan, fun _ => ⟨?_, hnan⟩⟩
      rw [hcount, steps_infinite hf hsteps, ofMatrix_progression]

end Value

namespace Runner

open Value (range rangeSlack)

theorem range_zero_infinity : range 0.0 Number.infinity 5.0 = .ok (.double (0.0 + Number.ofNat 0 * Number.infinity)) := by
  have hsteps : Number.toNat (Number.floor ((5.0 - 0.0) / Number.infinity + rangeSlack)) = 0 := by decide +kernel
  simp only [range]
  rw [if_neg (by decide +kernel), if_neg (by decide +kernel)]
  show Except.ok (Value.ofMatrix (.row (Value.progression 0.0 Number.infinity _))) = _
  rw [hsteps, Value.ofMatrix_progression]

/-- The range from zero with an infinite step begins with NaN. -/
theorem range_infinite_step :
    Number.finite 0.0 = true ∧ Number.finite 5.0 = true ∧
    (Number.infinity == 0.0) = false ∧ Number.infinity.isNaN = false ∧
    ∃ x, range 0.0 Number.infinity 5.0 = .ok (.double x) ∧ (x == 0.0) = false ∧
      plain.evaluate "0:Inf:5".toList = .ok (.double x) := by
  refine ⟨by decide +kernel, by decide +kernel, by decide +kernel, by decide +kernel, _, range_zero_infinity, ?_, ?_⟩
  · decide +kernel
  · have hread : readExpr "0:Inf:5".toList = .ok (.range (.number 0.0) (some (.name "Inf".toList)) (.number 5.0)) := by
      with_unfolding_all rfl
    have hstep : Expr.eval plain.surroundings (.name "Inf".toList) = .ok (.double Number.infinity) :=
      Number.filled_single "Inf".toList Number.infinity
    refine evaluateUnder_eq_ok.2 ⟨_, hread, ?_⟩
    have hend : ∀ x, Expr.eval plain.surroundings (.number x) = .ok (.double x) := fun x => by rw [Expr.eval]
    have hnumber : ∀ fault x, Expr.rangeNumber fault (.double x) = .ok x := fun _ _ => rfl
    show Expr.eval plain.surroundings _ = _
    rw [Expr.eval]
    simp only [hstep, hend, hnumber, bind, Except.bind]
    exact range_zero_infinity

end Runner

end ConfigScript
