import ConfigScript.Proofs.Elements
/-!
# The limit on matrices

What asks for a matrix too large is an error: ranges, filled matrices, products and brackets count
before they build (`Value.Asks.refused`). The other operations build no more elements than their
operands have, but for two that make one element of each character of a text: an operator, which
works on the codes, and `isnan`. They do not count, so a matrix beyond the limit is a row or a
column as long as a text that one of them has taken (`Runner.BuildsFor.beyond_limit`), and
a long text does give one (`Runner.builds_beyond_limit`).
-/

namespace ConfigScript

namespace Matrix

/-- No more elements than a matrix may hold, or else a single row or column of a length with the property. -/
def Limited (L : Nat → Prop) (m : Matrix) : Prop :=
  m.data.size ≤ maxElements ∨ (m.rows = 1 ∨ m.cols = 1) ∧ L m.data.size

variable {L : Nat → Prop} {m a b : Matrix}

theorem limited_of_le (h : m.data.size ≤ maxElements) : m.Limited L := .inl h

theorem limited_single (x : Float) : (single x).Limited L := limited_of_le (show 1 ≤ maxElements by decide)

theorem limited_row {xs : Array Float} (h : xs.size ≤ maxElements ∨ L xs.size) : (row xs).Limited L :=
  h.imp id fun hL => ⟨.inl rfl, hL⟩

theorem limited_of_fits {rows cols : Nat} (h : fits rows cols = true) (hr : m.rows = rows) (hc : m.cols = cols) :
    m.Limited L := by
  refine limited_of_le ?_
  rw [m.size_data, hr, hc]
  exact of_decide_eq_true h

theorem Limited.of_sizes (h : a.Limited L) (hr : b.rows = a.rows) (hc : b.cols = a.cols) : b.Limited L := by
  have hsize : b.data.size = a.data.size := by rw [b.size_data, hr, hc, a.size_data]
  rw [Limited, hr, hc, hsize]
  exact h

theorem Limited.transpose (h : m.Limited L) : m.transpose.Limited L := by
  rw [Limited, m.size_transpose]
  exact h.imp id fun hL => ⟨hL.1.symm, hL.2⟩

theorem Limited.combine {f : Float → Float → Float} (ha : a.Limited L) (hb : b.Limited L)
    (h : combine? f a b = some m) : m.Limited L := by
  unfold combine? at h
  split at h
  · cases h
    exact hb.of_sizes rfl rfl
  · cases h
    exact ha.of_sizes rfl rfl
  · split at h
    · cases h
      exact ha.of_sizes rfl rfl
    · cases h

/-- A matrix of more than one row has no more columns than elements, and a long column is one. -/
theorem Limited.columnSums (h : m.Limited L) (hr : 1 < m.rows) (hc : m.cols ≠ 1) : m.columnSums.Limited L := by
  have hsize : m.columnSums.data.size = m.cols := by
    rw [m.columnSums.size_data]
    exact Nat.one_mul m.cols
  rcases h with hle | ⟨hone | hone, -⟩
  · refine limited_of_le ?_
    rw [hsize]
    rw [m.size_data] at hle
    exact Nat.le_trans (Nat.le_mul_of_pos_left m.cols (by omega)) hle
  · omega
  · exact absurd hone hc

end Matrix

namespace Value

variable {L : Nat → Prop} {m a b : Matrix} {v w : Value} {vs : List Value} {sign : String}

/-! ## Operations keep the limit -/

/-- The text has a length with the property. -/
def Within (L : Nat → Prop) (v : Value) : Prop := ∀ t, v = .text t → L t.length

theorem operand_limited (hv : Each (Matrix.Limited L) v) (hL : Within L v) (h : operand sign v = .ok m) : m.Limited L := by
  rcases operand_eq_ok h with ⟨t, rfl, rfl⟩ | hm
  · refine Matrix.limited_row (.inr ?_)
    rw [List.size_toArray, List.length_map]
    exact hL t rfl
  · exact hv.matrix? Matrix.limited_single hm

theorem each_of_gives_limited {f : Function} {args : List Value} (hargs : ∀ a ∈ args, Each (Matrix.Limited L) a)
    (hL : f = .isnan → ∀ a ∈ args, Within L a) (h : f.Gives args v) : Each (Matrix.Limited L) v := by
  cases h with
  | logical b => exact each_logical b
  | double x => exact each_double x
  | text t => exact each_text t
  | nothing => exact each_matrix.2 (Matrix.limited_of_le (by decide))
  | struct hmem => exact structural_each.ofList fun p hp => hargs p.2 (hmem p hp)
  | filled _ _ _ hfits => exact .ofMatrix (Matrix.limited_of_fits hfits rfl rfl)
  | blanks hf hmem =>
    refine .ofMatrix (.inr ⟨.inl rfl, ?_⟩)
    rw [Matrix.size_data]
    exact (Nat.one_mul _).symm ▸ hL hf _ hmem _ rfl
  | mapped _ hmem hm => exact .ofMatrix (((hargs _ hmem).matrix? Matrix.limited_single hm).of_sizes rfl rfl)
  | flagged _ hmem hm => exact .ofFlags (((hargs _ hmem).matrix? Matrix.limited_single hm).of_sizes rfl rfl)
  | paired ha hb hm hn hk => exact .ofMatrix (((hargs _ ha).matrix? Matrix.limited_single hm).combine ((hargs _ hb).matrix? Matrix.limited_single hn) hk)
  | sizes x y => exact each_matrix.2 (Matrix.limited_of_le (show 2 ≤ Matrix.maxElements by decide))
  | sums hmem hm hrows hcols => exact each_matrix.2 (((hargs _ hmem).matrix? Matrix.limited_single hm).columnSums hrows hcols)

theorem unary_limited {op : UnaryOp} (hv : Each (Matrix.Limited L) v) (hL : Within L v) (h : unary op v = .ok w) :
    Each (Matrix.Limited L) w := by
  obtain ⟨m, hm, h⟩ := bind_eq_ok.1 h
  have hlimited := operand_limited hv hL hm
  cases op with
  | negate =>
    cases h
    exact .ofMatrix (hlimited.of_sizes rfl rfl)
  | plus =>
    cases h
    exact .ofMatrix hlimited
  | not =>
    cases h
    exact .ofFlags (hlimited.of_sizes rfl rfl)

theorem binary_limited {op : BinaryOp} {u : Value} (hv : Each (Matrix.Limited L) v) (hw : Each (Matrix.Limited L) w)
    (hLv : Within L v) (hLw : Within L w) (h : binary op v w = .ok u) : Each (Matrix.Limited L) u := by
  obtain ⟨a, ha, h⟩ := bind_eq_ok.1 h
  obtain ⟨b, hb, h⟩ := bind_eq_ok.1 h
  have hlimited : ∀ {f m}, Matrix.combine? f a b = some m → m.Limited L :=
    fun hm => (operand_limited hv hLv ha).combine (operand_limited hw hLw hb) hm
  cases binaryMatrix_combines h with
  | numbers hm => exact .ofMatrix (hlimited hm)
  | flags hm => exact .ofFlags (hlimited hm)
  | product _ hfits => exact .ofMatrix (Matrix.limited_of_fits hfits rfl rfl)

theorem range_limited {start step stop : Float} (h : range start step stop = .ok v) : Each (Matrix.Limited L) v := by
  rcases range_eq_ok h with rfl | ⟨steps, hlt, rfl⟩
  · exact each_matrix.2 (Matrix.limited_of_le (by decide))
  · refine .ofMatrix (Matrix.limited_row (.inl ?_))
    rw [size_progression]
    exact hlt

theorem transpose_limited (hv : Each (Matrix.Limited L) v) (h : v.transpose = .ok w) : Each (Matrix.Limited L) w := by
  rcases transpose_eq_ok h with rfl | ⟨m, rfl, rfl⟩
  · exact hv
  · exact each_matrix.2 (each_matrix.1 hv).transpose

/-- As many positions as elements of the subscript. -/
theorem positions_length {arg : Value} {ps : List Nat} (h : arg.positions = .ok ps) :
    ∃ m, arg.matrix? = some m ∧ ps.length = m.data.size := by
  cases arg with
  | double x =>
    obtain ⟨p, -, h⟩ := bind_eq_ok.1 h
    cases h
    exact ⟨.single x, rfl, rfl⟩
  | matrix m => exact ⟨m, rfl, by simpa using length_of_mapM h⟩
  | _ => cases h

theorem index_limited (hv : Each (Matrix.Limited L) v) (hvs : ∀ u ∈ vs, Each (Matrix.Limited L) u) (h : v.index vs = .ok w) :
    Each (Matrix.Limited L) w := by
  refine structural_each.selected each_text each_double (fun hmem hps hlength => ?_) hv (index_selects h)
  obtain ⟨m, hm, hsize⟩ := positions_length hps
  have hlimited := (hvs _ hmem).matrix? Matrix.limited_single hm
  refine .ofMatrix (Matrix.limited_row ?_)
  rw [List.size_toArray, hlength, hsize]
  exact hlimited.imp id And.right

theorem Joins.limited (hvs : ∀ u ∈ vs, Each (Matrix.Limited L) u) (h : Joins vs w) : Each (Matrix.Limited L) w :=
  structural_each.joined each_text (each_matrix.2 (Matrix.limited_of_le (by decide)))
    (fun _ hmax => .ofMatrix (Matrix.limited_of_le hmax)) hvs h

/-- Beyond the limit no operation makes a matrix, but for an operator or `isnan` on a text. -/
theorem inherited_limited : Inherited (Within L) (Each (Matrix.Limited L)) where
  logical := each_logical
  double := each_double
  text := each_text
  noFields := structural_each.noFields
  cell := each_cell.2
  call hargs hL h := each_of_gives_limited hargs hL (Function.call_gives h)
  unary hv hL h := unary_limited hv hL h
  binary hv hw hLv hLw h := binary_limited hv hw hLv hLw h
  range h := range_limited h
  transpose hv h := transpose_limited hv h
  index hv hvs h := index_limited hv hvs h
  brace hv h := structural_each.brace hv h
  beside hvs h := (beside_joins h).limited hvs
  stacked hvs h := (stacked_joins h).limited hvs
  readField hv h := structural_each.readField hv h
  setField hv hnew h := structural_each.setField hv hnew h

/-! ## What is refused -/

/-- An operation on these operands asks for a matrix of these sizes. -/
inductive Asks : Except Fault Value → Nat → Nat → Prop
  | filled {name : Text} {r c : Value} {rows cols : Nat} (x : Float) : Function.dimension name r = .ok rows →
      Function.dimension name c = .ok cols → Asks (Function.filled name [r, c] x) rows cols
  | square {name : Text} {r : Value} {n : Nat} (x : Float) : Function.dimension name r = .ok n →
      Asks (Function.filled name [r] x) n n
  | range {start step stop : Float} : (step == 0.0) = false → Number.finite start = true →
      Number.finite stop = true → ((stop - start) / step).isNaN = false → ¬ (stop - start) / step < 0.0 →
      Asks (range start step stop) 1 (Number.toNat (Number.floor ((stop - start) / step + rangeSlack)) + 1)
  | product {left right : Value} {a b : Matrix} : operand "*" left = .ok a → operand "*" right = .ok b →
      a.isScalar = false → b.isScalar = false → a.cols = b.rows → Asks (binary .mul left right) a.rows b.cols
  | beside {items : List Value} {first : Matrix} {parts : List Matrix} : (∀ u, items ≠ [u]) →
      items.any isText = false → items.any isCell = false → numericParts items = .ok (first :: parts) →
      (∀ n ∈ first :: parts, n.rows = first.rows) →
      Asks (beside items) first.rows (Matrix.width (first :: parts))
  | stacked {rows : List Value} {first : Matrix} {parts : List Matrix} : rows ≠ [] → (∀ u, rows ≠ [u]) →
      rows.any isCell = false → rowParts rows = .ok (first :: parts) →
      (∀ n ∈ first :: parts, n.cols = first.cols) →
      Asks (stacked rows) (Matrix.height (first :: parts)) first.cols

/-- Whoever asks for too many elements gets an error. -/
theorem Asks.refused {x : Except Fault Value} {rows cols : Nat} (h : Asks x rows cols)
    (hlarge : Matrix.maxElements < rows * cols) : x = .error (.tooLarge rows cols) ∨ x = .error .rangeTooLong := by
  have hfits : ¬ Matrix.fits rows cols = true := fun h => Nat.not_le_of_lt hlarge (of_decide_eq_true h)
  cases h with
  | filled x hr hc =>
    left
    exact bind_eq_error.2 (.inr ⟨rows, hr, bind_eq_error.2 (.inr ⟨cols, hc, if_neg hfits⟩)⟩)
  | square x hn =>
    left
    exact bind_eq_error.2 (.inr ⟨rows, hn, if_neg hfits⟩)
  | @range start step stop hstep hstart hstop hnan hneg =>
    right
    have hsteps : Number.ofNat Matrix.maxElements ≤ Number.floor ((stop - start) / step + rangeSlack) :=
      isNat_maxElements.le_of_le_toNat (by decide) (by omega)
    unfold Value.range
    rw [if_neg (by simp only [hstep, hstart, hstop, hnan, hneg, decide_false]; decide), if_pos hsteps]
  | @product left right a b ha hb hsa hsb hsizes =>
    left
    refine bind_eq_error.2 (.inr ⟨a, ha, bind_eq_error.2 (.inr ⟨b, hb, ?_⟩)⟩)
    simp only [binaryMatrix, hsa, hsb]
    refine bind_eq_error.2 (.inl ?_)
    rw [Value.product, dif_pos hsizes, if_neg hfits]
  | @beside items first parts halone htext hcell hparts hrows =>
    left
    rw [beside_of_numbers halone htext hcell]
    exact bind_eq_error.2 (.inr ⟨first :: parts, hparts, (dif_pos hrows).trans (if_neg hfits)⟩)
  | @stacked items first parts hne halone hcell hparts hcols =>
    left
    rw [stacked_of_numbers hne halone hcell]
    exact bind_eq_error.2 (.inr ⟨first :: parts, hparts, (dif_pos hcols).trans (if_neg hfits)⟩)

end Value

/-! ## Filled rows and their digits -/

namespace Text

theorem length_join_replicate (separator t : Text) (n : Nat) :
    (join separator (List.replicate (n + 1) t)).length = t.length + n * (separator.length + t.length) := by
  induction n with
  | zero => simp [join_single]
  | succ n ih =>
    rw [List.replicate_succ, List.replicate_succ, join_cons_cons, ← List.replicate_succ, List.length_append,
      List.length_append, ih, Nat.succ_mul]
    omega

end Text

theorem Value.ofMatrix_filled {cols : Nat} (h : cols ≠ 1) (x : Float) :
    Value.ofMatrix (.filled 1 cols x) = .matrix (.filled 1 cols x) := by
  rw [Value.ofMatrix, Matrix.scalar?, dif_neg fun hone => h hone.2]

namespace Function

theorem dimension_double {name : Text} {x : Float} {n : Nat} (hx : (0.0 ≤ x && Number.isWhole x) = true)
    (hn : Number.toNat x = n) : dimension name (.double x) = .ok n := by
  show (if _ then _ else _) = _
  rw [if_pos hx, hn]

theorem filled_eq_ok {name : Text} {r c : Value} {rows cols : Nat} {x : Float} (hr : dimension name r = .ok rows)
    (hc : dimension name c = .ok cols) (hfits : Matrix.fits rows cols = true) :
    filled name [r, c] x = .ok (.ofMatrix (.filled rows cols x)) := by
  refine bind_eq_ok.2 ⟨rows, hr, bind_eq_ok.2 ⟨cols, hc, ?_⟩⟩
  show (if Matrix.fits rows cols = true then _ else _) = _
  rw [if_pos hfits]
  rfl

end Function

namespace Runner

variable {settings : Settings} {process : Table Text} {q : Request} {v : Value} {m : Matrix}

/-- A matrix beyond the limit, at any depth of a value built for a request, is a row or a column as long as a
text that an operator or `isnan` has taken for the same request. What asks for a matrix beyond the
limit is refused. -/
theorem BuildsFor.beyond_limit (h : BuildsFor settings process q v) (hm : .matrix m ∈ v.parts) :
    (Matrix.maxElements < m.data.size → (m.rows = 1 ∨ m.cols = 1) ∧
      ∃ s e t, Evaluates settings process q s e ∧ Expr.Takes s e.parts (.text t) ∧ t.length = m.data.size) ∧
    ∀ x rows cols, Value.Asks x rows cols → Matrix.maxElements < rows * cols →
      x = .error (.tooLarge rows cols) ∨ x = .error .rangeTooLong := by
  refine ⟨fun hlarge => ?_, fun x rows cols hasks => hasks.refused⟩
  have hall := h.inherits
    (Value.inherited_limited (L := fun n => ∃ s e t, Evaluates settings process q s e ∧
      Expr.Takes s e.parts (.text t) ∧ t.length = n)) (fun {s e} he u hu t ht => ⟨s, e, t, he, ht ▸ hu, rfl⟩)
  exact (hall m hm).resolve_left (Nat.not_le_of_lt hlarge)

/-! ## A text longer than the limit -/

/-- A zero for each of 400000 digits, two blanks between neighbours, and a flag for each character. -/
def flagsOfDigits : Expr :=
  .apply (.name "isnan".toList)
    [.apply (.name "num2str".toList) [.apply (.name "zeros".toList) [.number 1.0, .number 400000.0]]]

theorem eval_flagsOfDigits :
    Expr.eval plain.surroundings flagsOfDigits = .ok (.matrix (.filled 1 1199998 0.0)) := by
  have hcall : ∀ {name : Text} {args : List Expr} {vs : List Value} {v : Value},
      Expr.evalList plain.surroundings args = .ok vs → Expr.callName plain.surroundings name vs = .ok v →
      Expr.eval plain.surroundings (.apply (.name name) args) = .ok v :=
    fun hargs hv => bind_eq_ok.2 ⟨_, hargs, hv⟩
  have hargs : ∀ {e : Expr} {v : Value}, Expr.eval plain.surroundings e = .ok v →
      Expr.evalList plain.surroundings [e] = .ok [v] :=
    fun h => bind_eq_ok.2 ⟨_, h, rfl⟩
  have hsizes : Expr.evalList plain.surroundings [.number 1.0, .number 400000.0] =
    .ok [.double 1.0, .double 400000.0] := rfl
  have hzeros : Expr.callName plain.surroundings "zeros".toList [.double 1.0, .double 400000.0] =
      .ok (.matrix (.filled 1 400000 0.0)) := by
    have hname : ∀ vs, Expr.callName plain.surroundings "zeros".toList vs =
      Function.filled "zeros".toList vs 0.0 := fun _ => rfl
    rw [hname, ← Value.ofMatrix_filled (by decide)]
    exact Function.filled_eq_ok (Function.dimension_double (by decide +kernel) (by decide +kernel))
      (Function.dimension_double (by decide +kernel) (by decide +kernel)) (by decide)
  have hdigits : ∀ m : Matrix, Expr.callName plain.surroundings "num2str".toList [.matrix m] =
    .ok (.text (Text.join "  ".toList (m.data.toList.map Number.render))) := fun _ => rfl
  have hflags : ∀ t : Text, Expr.callName plain.surroundings "isnan".toList [.text t] =
    .ok (Value.ofMatrix (.filled 1 t.length 0.0)) := fun _ => rfl
  have hlength : (Text.join "  ".toList ((Matrix.filled 1 400000 0.0).data.toList.map Number.render)).length =
      1199998 := by
    have hrender : Number.render 0.0 = ['0'] := by decide +kernel
    have hlist : (Matrix.filled 1 400000 0.0).data.toList = List.replicate (399999 + 1) 0.0 := by
      simp only [Matrix.filled, Array.toList_replicate]
    rw [hlist, List.map_replicate, hrender, Text.length_join_replicate]
    rfl
  have hvalue := hcall (hargs (hcall (hargs (hcall hsizes hzeros)) (hdigits _))) (hflags _)
  rw [hlength, Value.ofMatrix_filled (by decide)] at hvalue
  exact hvalue

theorem readExpr_flagsOfDigits : readExpr "numel(isnan(num2str(zeros(1, 400000))))".toList =
    .ok (.apply (.name "numel".toList) [flagsOfDigits]) := by
  with_unfolding_all rfl

theorem builds_flagsOfDigits :
    BuildsFor {} [] (.expression "numel(isnan(num2str(zeros(1, 400000))))".toList)
      (.matrix (.filled 1 1199998 0.0)) := by
  refine .value (.expression readExpr_flagsOfDigits) (.part ?_ eval_flagsOfDigits)
  simp [Expr.parts, Expr.partsList, Expr.mem_parts_self]

theorem size_flagsOfDigits : (Matrix.filled 1 1199998 0.0).data.size = 1199998 :=
  (Matrix.size_data _).trans (Nat.one_mul _)

/-- The flags of a long text are more elements than a matrix may hold, and they are counted without an error. -/
theorem builds_beyond_limit :
    plain.evaluate "numel(isnan(num2str(zeros(1, 400000))))".toList = .ok (.double (Number.ofNat 1199998)) ∧
      ∃ v m, BuildsFor {} [] (.expression "numel(isnan(num2str(zeros(1, 400000))))".toList) v ∧
        .matrix m ∈ v.parts ∧ Matrix.maxElements < m.data.size := by
  have hcount : ∀ m : Matrix, Expr.callName plain.surroundings "numel".toList [.matrix m] =
    .ok (.double (Number.ofNat m.data.size)) := fun _ => rfl
  have hvalue := hcount (.filled 1 1199998 0.0)
  rw [size_flagsOfDigits] at hvalue
  refine ⟨evaluateUnder_eq_ok.2 ⟨_, readExpr_flagsOfDigits, ?_⟩, _, _, builds_flagsOfDigits,
    List.mem_singleton_self _, ?_⟩
  · exact bind_eq_ok.2 ⟨_, bind_eq_ok.2 ⟨_, eval_flagsOfDigits, rfl⟩, hvalue⟩
  · rw [size_flagsOfDigits]
    decide

/-- They are as many as the characters of the text that `isnan` takes. -/
theorem beyond_limit_flagsOfDigits :
    ∃ s e t, Evaluates {} [] (.expression "numel(isnan(num2str(zeros(1, 400000))))".toList) s e ∧
      Expr.Takes s e.parts (.text t) ∧ t.length = 1199998 := by
  obtain ⟨-, s, e, t, he, ht, hlength⟩ :=
    (builds_flagsOfDigits.beyond_limit (List.mem_singleton_self _)).1 (by rw [size_flagsOfDigits]; decide)
  exact ⟨s, e, t, he, ht, hlength.trans size_flagsOfDigits⟩

end Runner

end ConfigScript
