import ConfigScript.Value
/-!
# Equivalence of values

`Value.equivalent` compares numbers by `Value.sameNumber`. On numbers that is equality once the
two zeros are made one (`sameNumber_iff`), so it is an equivalence relation although `==` is not
reflexive. `Value.equivalent` inherits this, item by item and field by field.
-/

namespace ConfigScript

/-! ## Numbers -/

section Numbers

open Float.Model

/-- An unpacked number, minus zero made zero. -/
def unsignedZero : UnpackedFloat → UnpackedFloat
  | .zero _ => .zero .positive
  | u => u

theorem finite_compare_eq (s t : UnpackedFloat.Sign) (m n : Nat) (e f : Int) (hm : 0 < m)
    (hn : 0 < n) :
    (UnpackedFloat.finite s m e hm).compare (.finite t n f hn) = some .eq ↔ s = t ∧ e = f ∧ m = n := by
  cases s with
  | positive =>
    cases t with
    | positive =>
      change some ((compare e f).then (compare m n)) = some .eq ↔ _
      simp [Ordering.then_eq_eq]
    | negative =>
      change some Ordering.gt = some .eq ↔ _
      simp
  | negative =>
    cases t with
    | positive =>
      change some Ordering.lt = some .eq ↔ _
      simp
    | negative =>
      change some ((compare e f).then (compare m n)).swap = some .eq ↔ _
      simp [Ordering.then_eq_eq, Ordering.swap_eq_eq]

/-- Whether two unpacked numbers count as the same. -/
def sameUnpacked (u v : UnpackedFloat) : Bool := u.compare v == some .eq || (u.isNaN && v.isNaN)

theorem sameUnpacked_finite (s t : UnpackedFloat.Sign) (m n : Nat) (e f : Int) (hm : 0 < m)
    (hn : 0 < n) : sameUnpacked (.finite s m e hm) (.finite t n f hn) = true ↔
      UnpackedFloat.finite s m e hm = .finite t n f hn := by
  change ((UnpackedFloat.finite s m e hm).compare (.finite t n f hn) == some .eq || false) = true ↔ _
  rw [Bool.or_false, beq_iff_eq, finite_compare_eq, UnpackedFloat.finite.injEq]
  exact and_congr_right fun _ => and_comm

theorem sameUnpacked_iff (u v : UnpackedFloat) :
    sameUnpacked u v = true ↔ unsignedZero u = unsignedZero v := by
  cases u with
  | finite s m e hm =>
    cases v with
    | finite t n f hn => exact sameUnpacked_finite s t m n e f hm hn
    | infinity t => cases t <;> exact iff_of_false Bool.false_ne_true UnpackedFloat.noConfusion
    | _ => cases s <;> exact iff_of_false Bool.false_ne_true UnpackedFloat.noConfusion
  | infinity s =>
    cases v with
    | infinity t =>
      cases s with
      | positive =>
        cases t with
        | positive => exact iff_of_true rfl rfl
        | negative => exact iff_of_false Bool.false_ne_true fun h => by cases h
      | negative =>
        cases t with
        | positive => exact iff_of_false Bool.false_ne_true fun h => by cases h
        | negative => exact iff_of_true rfl rfl
    | _ => cases s <;> exact iff_of_false Bool.false_ne_true UnpackedFloat.noConfusion
  | zero s =>
    cases v with
    | zero t => exact iff_of_true rfl rfl
    | notANumber => exact iff_of_false Bool.false_ne_true UnpackedFloat.noConfusion
    | _ t => cases t <;> exact iff_of_false Bool.false_ne_true UnpackedFloat.noConfusion
  | notANumber =>
    cases v with
    | notANumber => exact iff_of_true rfl rfl
    | _ => exact iff_of_false Bool.false_ne_true UnpackedFloat.noConfusion

/-- Numbers are the same exactly if they differ at most in the sign of a zero. -/
theorem sameNumber_iff (x y : Float) :
    Value.sameNumber x y = true ↔ unsignedZero x.toModel.unpack = unsignedZero y.toModel.unpack :=
  sameUnpacked_iff _ _

end Numbers

theorem sameNumber_refl (x : Float) : Value.sameNumber x x = true := (sameNumber_iff x x).2 rfl

theorem sameNumber_symm {x y : Float} (h : Value.sameNumber x y = true) :
    Value.sameNumber y x = true :=
  (sameNumber_iff y x).2 ((sameNumber_iff x y).1 h).symm

theorem sameNumber_trans {x y z : Float} (h : Value.sameNumber x y = true)
    (h' : Value.sameNumber y z = true) : Value.sameNumber x z = true :=
  (sameNumber_iff x z).2 (((sameNumber_iff x y).1 h).trans ((sameNumber_iff y z).1 h'))

/-! ## Values -/

namespace Value

variable {same : Float → Float → Bool}

/-- Matrices agree if their sizes do and their elements do, place by place. -/
theorem agrees_matrix_iff (a b : Matrix) :
    agrees same (.matrix a) (.matrix b) = true ↔ a.rows = b.rows ∧ a.cols = b.cols ∧
      ∀ i (h : i < a.data.size) (h' : i < b.data.size), same a.data[i] b.data[i] = true := by
  rw [agrees, Bool.and_eq_true, Bool.and_eq_true, beq_iff_eq, beq_iff_eq, and_assoc,
    Array.all_eq_true]
  simp only [Array.size_zipWith, Array.getElem_zipWith, id_eq]
  refine and_congr_right fun _ => and_congr_right fun _ => ?_
  constructor
  · intro h i hi hi'
    exact h i (by omega)
  · intro h i hi
    exact h i (by omega) (by omega)

theorem size_eq_of_agrees {a b : Matrix} (h : agrees same (.matrix a) (.matrix b) = true) :
    a.data.size = b.data.size := by
  obtain ⟨hr, hc, -⟩ := (agrees_matrix_iff a b).1 h
  rw [a.size_data, b.size_data, hr, hc]

mutual

theorem agrees_refl (hs : ∀ x, same x x = true) : (v : Value) → agrees same v v = true
  | logical b => by simp [agrees]
  | double x => by simp [agrees, hs]
  | text t => by simp [agrees]
  | matrix m => (agrees_matrix_iff m m).2 ⟨rfl, rfl, fun _ _ _ => hs _⟩
  | cell items => by simpa [agrees] using agreeItems_refl hs items
  | struct fields => by simpa [agrees] using agreeFields_refl hs fields

theorem agreeItems_refl (hs : ∀ x, same x x = true) :
    (vs : List Value) → agreeItems same vs vs = true
  | [] => rfl
  | v :: vs => by simp [agreeItems, agrees_refl hs v, agreeItems_refl hs vs]

theorem agreeFields_refl (hs : ∀ x, same x x = true) :
    (fs : List (Text × Value)) → agreeFields same fs fs = true
  | [] => rfl
  | (n, v) :: fs => by simp [agreeFields, agrees_refl hs v, agreeFields_refl hs fs]

end

mutual

theorem agrees_symm (hs : ∀ {x y}, same x y = true → same y x = true) :
    (v w : Value) → agrees same v w = true → agrees same w v = true
  | logical _, w, h => by cases w <;> simp_all [agrees]
  | double _, w, h => by cases w <;> simp_all [agrees]
  | text _, w, h => by cases w <;> simp_all [agrees]
  | matrix a, w, h => by
    cases w with
    | matrix b =>
      obtain ⟨hr, hc, he⟩ := (agrees_matrix_iff a b).1 h
      exact (agrees_matrix_iff b a).2 ⟨hr.symm, hc.symm, fun i hi hi' => hs (he i hi' hi)⟩
    | _ => simp [agrees] at h
  | cell as, w, h => by
    cases w with
    | cell bs => simpa [agrees] using agreeItems_symm hs as bs (by simpa [agrees] using h)
    | _ => simp [agrees] at h
  | struct as, w, h => by
    cases w with
    | struct bs => simpa [agrees] using agreeFields_symm hs as bs (by simpa [agrees] using h)
    | _ => simp [agrees] at h

theorem agreeItems_symm (hs : ∀ {x y}, same x y = true → same y x = true) :
    (vs ws : List Value) → agreeItems same vs ws = true → agreeItems same ws vs = true
  | [], [], _ => rfl
  | [], _ :: _, h => by simp [agreeItems] at h
  | _ :: _, [], h => by simp [agreeItems] at h
  | v :: vs, w :: ws, h => by
    simp only [agreeItems, Bool.and_eq_true] at h ⊢
    exact ⟨agrees_symm hs v w h.1, agreeItems_symm hs vs ws h.2⟩

theorem agreeFields_symm (hs : ∀ {x y}, same x y = true → same y x = true) :
    (vs ws : List (Text × Value)) → agreeFields same vs ws = true → agreeFields same ws vs = true
  | [], [], _ => rfl
  | [], _ :: _, h => by simp [agreeFields] at h
  | _ :: _, [], h => by simp [agreeFields] at h
  | (n, v) :: vs, (m, w) :: ws, h => by
    simp only [agreeFields, Bool.and_eq_true, beq_iff_eq] at h ⊢
    exact ⟨⟨h.1.1.symm, agrees_symm hs v w h.1.2⟩, agreeFields_symm hs vs ws h.2⟩

end

mutual

theorem agrees_trans (hs : ∀ {x y z}, same x y = true → same y z = true → same x z = true) :
    (u v w : Value) → agrees same u v = true → agrees same v w = true → agrees same u w = true
  | logical _, v, w, h, h' => by cases v <;> cases w <;> simp_all [agrees]
  | double _, v, w, h, h' => by
    cases v with
    | double y =>
      cases w with
      | double z =>
        simp only [agrees] at h h' ⊢
        exact hs h h'
      | _ => simp [agrees] at h'
    | _ => simp [agrees] at h
  | text _, v, w, h, h' => by cases v <;> cases w <;> simp_all [agrees]
  | matrix a, v, w, h, h' => by
    cases v with
    | matrix b =>
      cases w with
      | matrix c =>
        have hn := size_eq_of_agrees h
        obtain ⟨hr, hc, he⟩ := (agrees_matrix_iff a b).1 h
        obtain ⟨hr', hc', he'⟩ := (agrees_matrix_iff b c).1 h'
        refine (agrees_matrix_iff a c).2 ⟨hr.trans hr', hc.trans hc', fun i hi hi' => ?_⟩
        exact hs (he i hi (hn ▸ hi)) (he' i (hn ▸ hi) hi')
      | _ => simp [agrees] at h'
    | _ => simp [agrees] at h
  | cell as, v, w, h, h' => by
    cases v with
    | cell bs =>
      cases w with
      | cell cs =>
        simp only [agrees] at h h' ⊢
        exact agreeItems_trans hs as bs cs h h'
      | _ => simp [agrees] at h'
    | _ => simp [agrees] at h
  | struct as, v, w, h, h' => by
    cases v with
    | struct bs =>
      cases w with
      | struct cs =>
        simp only [agrees] at h h' ⊢
        exact agreeFields_trans hs as bs cs h h'
      | _ => simp [agrees] at h'
    | _ => simp [agrees] at h

theorem agreeItems_trans (hs : ∀ {x y z}, same x y = true → same y z = true → same x z = true) :
    (us vs ws : List Value) → agreeItems same us vs = true → agreeItems same vs ws = true →
      agreeItems same us ws = true
  | [], [], _, _, h' => h'
  | [], _ :: _, _, h, _ => by simp [agreeItems] at h
  | _ :: _, [], _, h, _ => by simp [agreeItems] at h
  | _ :: _, _ :: _, [], _, h' => by simp [agreeItems] at h'
  | u :: us, v :: vs, w :: ws, h, h' => by
    simp only [agreeItems, Bool.and_eq_true] at h h' ⊢
    exact ⟨agrees_trans hs u v w h.1 h'.1, agreeItems_trans hs us vs ws h.2 h'.2⟩

theorem agreeFields_trans (hs : ∀ {x y z}, same x y = true → same y z = true → same x z = true) :
    (us vs ws : List (Text × Value)) → agreeFields same us vs = true →
      agreeFields same vs ws = true → agreeFields same us ws = true
  | [], [], _, _, h' => h'
  | [], _ :: _, _, h, _ => by simp [agreeFields] at h
  | _ :: _, [], _, h, _ => by simp [agreeFields] at h
  | _ :: _, _ :: _, [], _, h' => by simp [agreeFields] at h'
  | (n, u) :: us, (m, v) :: vs, (k, w) :: ws, h, h' => by
    simp only [agreeFields, Bool.and_eq_true, beq_iff_eq] at h h' ⊢
    exact ⟨⟨h.1.1.trans h'.1.1, agrees_trans hs u v w h.1.2 h'.1.2⟩, agreeFields_trans hs us vs ws h.2 h'.2⟩

end

theorem equivalent_refl (v : Value) : v.equivalent v = true := agrees_refl sameNumber_refl v

theorem equivalent_symm {v w : Value} (h : v.equivalent w = true) : w.equivalent v = true :=
  agrees_symm sameNumber_symm v w h

theorem equivalent_trans {u v w : Value} (h : u.equivalent v = true) (h' : v.equivalent w = true) :
    u.equivalent w = true := by
  rw [equivalent] at h h' ⊢
  exact agrees_trans @sameNumber_trans u v w h h'

end Value

end ConfigScript
