import ConfigScript.Proofs.Built
import ConfigScript.Proofs.Shapes
/-!
# Matrices and structs in values

Every matrix that a run builds holds as many elements as its sizes say and is not a single element,
which is a number of its own (`Runner.Builds.matrices`). So every read of an element finds one. Most
operations build a matrix through `Value.ofMatrix` or `Value.ofFlags`, which make a number of a single
element; a transposed matrix, the sums of columns and the two sizes of a value are the ones that need a
reason. The fields of every struct are in order, so only the sizes of its empty matrices keep a value
from being normal (`Runner.Builds.normal`), and those do not as long as the operands of the run are of
a size that there are addresses for (`Runner.BuildsFor.measured`).
-/

namespace ConfigScript

/-! ## Reading elements -/

/-- Every read of elements finds them: by row and column, a whole row, the only element, and by a
position counted down the columns. -/
structure Matrix.Readable (m : Matrix) : Prop where
  element : ∀ r c (hr : r < m.rows) (hc : c < m.cols), m.data[r * m.cols + c]? = some (m.get r c hr hc)
  row : ∀ r < m.rows, (r + 1) * m.cols ≤ m.data.size
  single : m.rows = 1 → m.cols = 1 → ∃ x, m.data[0]? = some x ∧ m.scalar? = some x
  position : ∀ p, 1 ≤ p → p ≤ m.data.size →
    ∃ hr hc, m.linear? p = some (m.get ((p - 1) % m.rows) ((p - 1) / m.rows) hr hc)

namespace Matrix

theorem readable (m : Matrix) : m.Readable where
  element r c hr hc := by
    have hlt : r * m.cols + c < m.data.size := m.size_data ▸ offset_lt hr hc
    rw [Array.getElem?_eq_getElem hlt]
    rfl
  row r hr := by
    rw [m.size_data]
    exact Nat.mul_le_mul_right m.cols hr
  single hr hc := by
    have hlt : 0 < m.data.size := by
      rw [m.size_data, hr, hc]
      decide
    refine ⟨m.data[0], Array.getElem?_eq_getElem hlt, ?_⟩
    rw [scalar?, dif_pos ⟨hr, hc⟩]
    simp [get]
  position p hp hsize := by
    have hlt : p - 1 < m.cols * m.rows := by
      rw [Nat.mul_comm, ← m.size_data]
      omega
    have hrows : 0 < m.rows := Nat.pos_of_ne_zero fun h0 => by simp [h0] at hlt
    refine ⟨Nat.mod_lt _ hrows, Nat.div_lt_of_lt_mul (Nat.mul_comm m.cols m.rows ▸ hlt), ?_⟩
    rw [linear?, dif_pos ⟨hp, hsize⟩]

/-- More or less than one element. -/
def Proper (m : Matrix) : Prop := ¬ (m.rows = 1 ∧ m.cols = 1)

end Matrix

/-! ## Positions -/

namespace Value

theorem position_pos {x : Float} {p : Nat} (h : position x = .ok p) : 1 ≤ p := by
  unfold position at h
  split at h
  · next hx =>
    cases h
    rw [Bool.and_eq_true, decide_eq_true_iff] at hx
    exact Number.one_le_toNat hx.1
  · cases h

/-- Positions count from one. -/
theorem positions_pos {v : Value} {ps : List Nat} (h : v.positions = .ok ps) : ∀ p ∈ ps, 1 ≤ p := by
  intro p hp
  cases v with
  | double x =>
    obtain ⟨q, hq, h⟩ := bind_eq_ok.1 h
    cases h
    rw [List.mem_singleton.1 hp]
    exact position_pos hq
  | matrix m =>
    obtain ⟨x, -, hx⟩ := mem_of_mapM h hp
    exact position_pos hx
  | _ => cases h

variable {Q : Matrix → Prop} {v w : Value} {vs : List Value}

/-! ## What operators give -/

variable {m : Matrix}

/-- A matrix of numbers or flags, or its only element. -/
inductive Computed : Value → Prop
  | numbers (m : Matrix) : Computed (ofMatrix m)
  | flags (m : Matrix) : Computed (ofFlags m)

theorem unary_computed {op : UnaryOp} (h : unary op v = .ok w) : Computed w := by
  obtain ⟨m, -, h⟩ := bind_eq_ok.1 h
  cases op with
  | negate | plus =>
    cases h
    exact .numbers _
  | not =>
    cases h
    exact .flags _

theorem binary_computed {op : BinaryOp} {u : Value} (h : binary op v w = .ok u) : Computed u := by
  obtain ⟨a, -, h⟩ := bind_eq_ok.1 h
  obtain ⟨b, -, h⟩ := bind_eq_ok.1 h
  cases binaryMatrix_combines h with
  | numbers | product => exact .numbers _
  | flags => exact .flags _

theorem range_computed {start step stop : Float} (h : range start step stop = .ok v) : Computed v := by
  rcases range_eq_ok h with rfl | ⟨steps, -, rfl⟩
  · exact .numbers (.row #[])
  · exact .numbers _

/-! ## No single element -/

theorem each_ofMatrix : Each Matrix.Proper (ofMatrix m) := by
  unfold ofMatrix
  split
  · exact each_double _
  · next hs => exact each_matrix.2 (Matrix.scalar?_eq_none hs)

theorem each_ofFlags : Each Matrix.Proper (ofFlags m) := by
  unfold ofFlags
  split
  · exact each_logical _
  · next hs => exact each_matrix.2 (Matrix.scalar?_eq_none hs)

theorem each_empty : Each Matrix.Proper .empty := each_matrix.2 fun h => absurd h.1 (by decide)

theorem Joins.each (hvs : ∀ v ∈ vs, Each Matrix.Proper v) (h : Joins vs w) : Each Matrix.Proper w :=
  structural_each.joined each_text each_empty (fun _ _ => each_ofMatrix) hvs h

theorem each_of_gives {f : Function} {args : List Value} (hargs : ∀ a ∈ args, Each Matrix.Proper a)
    (h : f.Gives args v) : Each Matrix.Proper v := by
  cases h with
  | logical b => exact each_logical b
  | double x => exact each_double x
  | text t => exact each_text t
  | nothing => exact each_empty
  | struct hmem => exact structural_each.ofList fun p hp => hargs p.2 (hmem p hp)
  | filled | blanks | mapped | paired => exact each_ofMatrix
  | flagged => exact each_ofFlags
  | sizes x y =>
    refine each_matrix.2 ?_
    rintro ⟨-, hcols⟩
    cases hcols
  | sums _ _ _ hcols => exact each_matrix.2 fun h => hcols h.2

theorem Computed.each (h : Computed v) : Each Matrix.Proper v := by
  cases h with
  | numbers m => exact each_ofMatrix
  | flags m => exact each_ofFlags

theorem transpose_proper (hv : Each Matrix.Proper v) (h : v.transpose = .ok w) : Each Matrix.Proper w := by
  rcases transpose_eq_ok h with rfl | ⟨m, rfl, rfl⟩
  · exact hv
  · exact each_matrix.2 fun ht => each_matrix.1 hv ht.symm

theorem index_proper (hv : Each Matrix.Proper v) (h : v.index vs = .ok w) : Each Matrix.Proper w :=
  structural_each.selected each_text each_double (fun _ _ _ => each_ofMatrix) hv (index_selects h)

/-- No operation makes a matrix of a single element. -/
theorem inherited_proper : Inherited (fun _ => True) (Each Matrix.Proper) where
  logical := each_logical
  double := each_double
  text := each_text
  noFields := structural_each.noFields
  cell := each_cell.2
  call hargs _ h := each_of_gives hargs (Function.call_gives h)
  unary _ _ h := (unary_computed h).each
  binary _ _ _ _ h := (binary_computed h).each
  range h := (range_computed h).each
  transpose hv h := transpose_proper hv h
  index hv _ h := index_proper hv h
  brace hv h := structural_each.brace hv h
  beside hvs h := (beside_joins h).each hvs
  stacked hvs h := (stacked_joins h).each hvs
  readField hv h := structural_each.readField hv h
  setField hv hnew h := structural_each.setField hv hnew h

/-! ## Fields in order -/

/-- The fields of every struct in the value, at any depth, are in order. -/
def Ordered (v : Value) : Prop := ∀ fields, struct fields ∈ v.parts → Table.Sorted fields

@[simp] theorem ordered_logical (b : Bool) : Ordered (logical b) := by simp [Ordered, parts]

@[simp] theorem ordered_double (x : Float) : Ordered (double x) := by simp [Ordered, parts]

@[simp] theorem ordered_text (t : Text) : Ordered (text t) := by simp [Ordered, parts]

@[simp] theorem ordered_matrix (m : Matrix) : Ordered (matrix m) := by simp [Ordered, parts]

@[simp] theorem ordered_cell {items : List Value} : Ordered (cell items) ↔ ∀ v ∈ items, Ordered v := by
  simp only [Ordered, parts, List.mem_cons, reduceCtorEq, false_or, mem_partsList]
  constructor
  · exact fun h v hv f hf => h f ⟨v, hv, hf⟩
  · rintro h f ⟨v, hv, hf⟩
    exact h v hv f hf

@[simp] theorem ordered_struct {fields : List (Text × Value)} :
    Ordered (struct fields) ↔ Table.Sorted fields ∧ ∀ p ∈ fields, Ordered p.2 := by
  simp only [Ordered, parts, List.mem_cons, struct.injEq, mem_partsFields]
  constructor
  · exact fun h => ⟨h fields (.inl rfl), fun p hp f hf => h f (.inr ⟨p, hp, hf⟩)⟩
  · rintro ⟨hsorted, hall⟩ f (rfl | ⟨p, hp, hf⟩)
    · exact hsorted
    · exact hall p hp f hf

theorem structural_ordered : Structural Ordered where
  cell := ordered_cell
  noFields := ordered_struct.2 ⟨Table.sorted_nil, nofun⟩
  fields h := (ordered_struct.1 h).2
  insert h hv := by
    obtain ⟨hsorted, hall⟩ := ordered_struct.1 h
    refine ordered_struct.2 ⟨hsorted.insert _ _, fun p hp => ?_⟩
    rcases Table.mem_insert hp with rfl | hp
    · exact hv
    · exact hall p hp

theorem Computed.ordered (h : Computed v) : Ordered v := by
  cases h with
  | numbers m =>
    unfold ofMatrix
    split <;> simp
  | flags m =>
    unfold ofFlags
    split <;> simp

theorem ordered_of_gives {f : Function} {args : List Value} (hargs : ∀ a ∈ args, Ordered a) (h : f.Gives args v) :
    Ordered v := by
  cases h with
  | logical | double | text | nothing | sizes | sums => simp [empty]
  | struct hmem => exact structural_ordered.ofList fun p hp => hargs p.2 (hmem p hp)
  | filled | blanks | mapped | paired => exact (Computed.numbers _).ordered
  | flagged => exact (Computed.flags _).ordered

theorem transpose_ordered (hv : Ordered v) (h : v.transpose = .ok w) : Ordered w := by
  rcases transpose_eq_ok h with rfl | ⟨m, rfl, rfl⟩
  · exact hv
  · exact ordered_matrix _

theorem index_ordered (hv : Ordered v) (h : v.index vs = .ok w) : Ordered w :=
  structural_ordered.selected ordered_text ordered_double (fun _ _ _ => (Computed.numbers _).ordered) hv (index_selects h)

theorem Joins.ordered (hvs : ∀ v ∈ vs, Ordered v) (h : Joins vs w) : Ordered w :=
  structural_ordered.joined ordered_text (ordered_matrix _) (fun _ _ => (Computed.numbers _).ordered) hvs h

/-- No operation takes fields out of their order. -/
theorem inherited_ordered : Inherited (fun _ => True) Ordered where
  logical := ordered_logical
  double := ordered_double
  text := ordered_text
  noFields := structural_ordered.noFields
  cell := ordered_cell.2
  call hargs _ h := ordered_of_gives hargs (Function.call_gives h)
  unary _ _ h := (unary_computed h).ordered
  binary _ _ _ _ h := (binary_computed h).ordered
  range h := (range_computed h).ordered
  transpose hv h := transpose_ordered hv h
  index hv _ h := index_ordered hv h
  brace hv h := structural_ordered.brace hv h
  beside hvs h := (beside_joins h).ordered hvs
  stacked hvs h := (stacked_joins h).ordered hvs
  readField hv h := structural_ordered.readField hv h
  setField hv hnew h := structural_ordered.setField hv hnew h

/-! ## Sizes of empty matrices -/

theorem operand_measured {sign : String} (hv : Each Matrix.Measured v) (h : operand sign v = .ok m) : m.Measured := by
  rcases operand_eq_ok h with ⟨t, -, rfl⟩ | hm
  · exact Matrix.measured_row _
  · exact hv.matrix? Matrix.measured_single hm

theorem operand_size {sign : String} (h : operand sign v = .ok m) : m.data.size = v.count := by
  rcases operand_eq_ok h with ⟨t, rfl, rfl⟩ | hm
  · simp [Matrix.row, count]
  · cases v <;> cases hm <;> rfl

theorem measured_of_gives {f : Function} {args : List Value} (hargs : ∀ a ∈ args, Each Matrix.Measured a)
    (h : f.Gives args v) : Each Matrix.Measured v := by
  have hoperand : ∀ {a m}, a ∈ args → a.matrix? = some m → m.Measured :=
    fun ha hm => (hargs _ ha).matrix? Matrix.measured_single hm
  cases h with
  | logical b => exact each_logical b
  | double x => exact each_double x
  | text t => exact each_text t
  | nothing => exact each_matrix.2 Matrix.measured_empty
  | struct hmem => exact structural_each.ofList fun p hp => hargs p.2 (hmem p hp)
  | filled x hr hc => exact .ofMatrix (Matrix.measured_filled hr hc x)
  | blanks => exact .ofMatrix (Matrix.measured_of_one_row rfl)
  | mapped f ha hm => exact .ofMatrix ((hoperand ha hm).map f)
  | flagged f ha hm => exact .ofFlags ((hoperand ha hm).map f)
  | paired ha hb hm hn hk => exact .ofMatrix ((hoperand ha hm).combine (hoperand hb hn) hk)
  | sizes x y => exact each_matrix.2 (Matrix.measured_row _)
  | sums => exact each_matrix.2 (Matrix.measured_of_one_row rfl)

theorem unary_measured {op : UnaryOp} (hv : Each Matrix.Measured v) (h : unary op v = .ok w) :
    Each Matrix.Measured w := by
  obtain ⟨m, hm, h⟩ := bind_eq_ok.1 h
  have hmeasured := operand_measured hv hm
  cases op with
  | negate =>
    cases h
    exact .ofMatrix (hmeasured.map _)
  | plus =>
    cases h
    exact .ofMatrix hmeasured
  | not =>
    cases h
    exact .ofFlags (hmeasured.map _)

/-- The sizes of a product are those of its operands. -/
theorem binary_measured {op : BinaryOp} {u : Value} (hv : Each Matrix.Measured v) (hw : Each Matrix.Measured w)
    (hnv : v.count < 2 ^ 53) (hnw : w.count < 2 ^ 53) (h : binary op v w = .ok u) : Each Matrix.Measured u := by
  obtain ⟨a, ha, h⟩ := bind_eq_ok.1 h
  obtain ⟨b, hb, h⟩ := bind_eq_ok.1 h
  have hma := operand_measured hv ha
  have hmb := operand_measured hw hb
  cases binaryMatrix_combines h with
  | numbers hm => exact .ofMatrix (hma.combine hmb hm)
  | flags hm => exact .ofFlags (hma.combine hmb hm)
  | product =>
    have hrows := (hma.counted (operand_size ha ▸ hnv)).1
    have hcols := (hmb.counted (operand_size hb ▸ hnw)).2
    exact .ofMatrix fun _ => ⟨hrows, hcols⟩

theorem range_measured {start step stop : Float} (h : range start step stop = .ok v) : Each Matrix.Measured v := by
  rcases range_eq_ok h with rfl | ⟨steps, -, rfl⟩
  · exact each_matrix.2 (Matrix.measured_row _)
  · exact .ofMatrix (Matrix.measured_row _)

theorem transpose_measured (hv : Each Matrix.Measured v) (h : v.transpose = .ok w) : Each Matrix.Measured w := by
  rcases transpose_eq_ok h with rfl | ⟨m, rfl, rfl⟩
  · exact hv
  · exact each_matrix.2 (each_matrix.1 hv).transpose

theorem index_measured (hv : Each Matrix.Measured v) (h : v.index vs = .ok w) : Each Matrix.Measured w :=
  structural_each.selected each_text each_double (fun _ _ _ => .ofMatrix (Matrix.measured_row _)) hv (index_selects h)

theorem Joins.measured (hvs : ∀ v ∈ vs, Each Matrix.Measured v) (h : Joins vs w) : Each Matrix.Measured w :=
  structural_each.joined each_text (each_matrix.2 Matrix.measured_empty)
    (fun hpos _ => .ofMatrix (Matrix.measured_of_pos hpos)) hvs h

/-- No operation makes an empty matrix of sizes that are no parts of doubles, if operators take less than 2^53
elements. -/
theorem inherited_measured : Inherited (fun v => v.count < 2 ^ 53) (Each Matrix.Measured) where
  logical := each_logical
  double := each_double
  text := each_text
  noFields := structural_each.noFields
  cell := each_cell.2
  call hargs _ h := measured_of_gives hargs (Function.call_gives h)
  unary hv _ h := unary_measured hv h
  binary hv hw hnv hnw h := binary_measured hv hw hnv hnw h
  range h := range_measured h
  transpose hv h := transpose_measured hv h
  index hv _ h := index_measured hv h
  brace hv h := structural_each.brace hv h
  beside hvs h := (beside_joins h).measured hvs
  stacked hvs h := (stacked_joins h).measured hvs
  readField hv h := structural_each.readField hv h
  setField hv hnew h := structural_each.setField hv hnew h

/-! ## Normal values -/

/-- A value with fields in order is normal, if its matrices are no single elements and those without elements
have sizes that are parts of doubles. -/
theorem normal_of_parts : (v : Value) → Each Matrix.Proper v → Ordered v → Each Matrix.Measured v → Normal v
  | .logical b, _, _, _ => .logical b
  | .double x, _, _, _ => .double x
  | .text t, _, _, _ => .text t
  | .matrix _, hproper, _, hmeasured => .matrix (each_matrix.1 hproper) (each_matrix.1 hmeasured)
  | .cell _, hproper, hordered, hmeasured => .cell fun v hv =>
    normal_of_parts v (each_cell.1 hproper v hv) (ordered_cell.1 hordered v hv) (each_cell.1 hmeasured v hv)
  | .struct _, hproper, hordered, hmeasured =>
    .struct (ordered_struct.1 hordered).1 fun p hp => normal_of_parts p.2 (each_struct.1 hproper p hp)
      ((ordered_struct.1 hordered).2 p hp) (each_struct.1 hmeasured p hp)
termination_by v => sizeOf v
decreasing_by
  · have := List.sizeOf_lt_of_mem hv
    simp
    omega
  · have := List.sizeOf_lt_of_mem hp
    obtain ⟨name, v⟩ := p
    simp at this ⊢
    omega

end Value

namespace Runner

variable {settings : Settings} {process : Table Text} {q : Request} {v : Value}

/-- The empty matrices that a run builds have sizes that are parts of doubles, if no operand in it has 2^53
elements. That many doubles take 2^56 bytes, more than there are addresses for. -/
theorem BuildsFor.measured
    (hsmall : ∀ {s e}, Evaluates settings process q s e → Expr.Suits (fun v => v.count < 2 ^ 53) s e.parts)
    (h : BuildsFor settings process q v) : v.Each Matrix.Measured :=
  h.inherits Value.inherited_measured hsmall

/-- What a run builds is normal, if its matrices without elements have sizes that are parts of doubles. -/
theorem BuildsFor.normal (h : BuildsFor settings process q v) (hm : v.Each Matrix.Measured) : v.Normal :=
  Value.normal_of_parts v (h.inherits Value.inherited_proper fun _ => Expr.suits_true)
    (h.inherits Value.inherited_ordered fun _ => Expr.suits_true) hm

theorem Builds.normal (h : Builds settings process v) (hm : v.Each Matrix.Measured) : v.Normal :=
  h.exists_request.elim fun _ hq => hq.normal hm

/-- A matrix at any depth of a value that a run builds holds as many elements as its sizes say and is
not a single element. Positions count from one, and every read of an element of a matrix, of those
that operators make on the way too, finds the element. -/
theorem Builds.matrices {settings : Settings} {process : Table Text} {v : Value}
    (h : Builds settings process v) :
    (∀ m, .matrix m ∈ v.parts → m.rows * m.cols = m.data.size ∧ ¬ (m.rows = 1 ∧ m.cols = 1)) ∧
      (∀ ps, v.positions = .ok ps → ∀ p ∈ ps, 1 ≤ p) ∧ ∀ m : Matrix, m.Readable :=
  ⟨fun m hm => ⟨m.size_data.symm, h.inherits Value.inherited_proper m hm⟩, fun _ => Value.positions_pos,
    Matrix.readable⟩

/-- The flags of a row are a row, inside a struct too. -/
theorem matrices_of_flags :
    let m := Matrix.row #[0.0, 1.0]
    Builds {} [] (.struct [("f".toList, .matrix m)]) ∧ m.rows * m.cols = m.data.size ∧ ¬ (m.rows = 1 ∧ m.cols = 1) := by
  have hread : readExpr "struct('f', [1, 2] > 1)".toList = .ok (.apply (.name "struct".toList)
      [.quoted "f".toList, .binary .greater (.matrix [[.number 1.0, .number 2.0]]) (.number 1.0)]) := by
    with_unfolding_all rfl
  have hbuilds : Builds {} [] (.struct [("f".toList, .matrix (.row #[0.0, 1.0]))]) := by
    refine .expression hread (.part (Expr.mem_parts_self _) ?_)
    with_unfolding_all rfl
  exact ⟨hbuilds, (hbuilds.matrices).1 _ (by simp [Value.parts, Value.partsFields])⟩

end Runner

end ConfigScript
