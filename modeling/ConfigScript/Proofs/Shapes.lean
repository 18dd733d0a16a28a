import ConfigScript.Proofs.Inheritance
/-!
# The shape of computed values

The values that evaluation makes have one shape (`Value.Normal`): a matrix of one element is a number, the
fields of a struct are in order, and the sizes of a matrix without elements are whole parts of
doubles. What is asked of the matrices in a value at any depth (`Value.Each`) is asked of its parts.
-/

namespace ConfigScript

open Number (Counted counted_of_lt)

/-! ## Shapes -/

/-- A matrix without elements has sizes that are whole parts of doubles. -/
def Matrix.Measured (m : Matrix) : Prop := m.data.size = 0 → Counted m.rows ∧ Counted m.cols

namespace Value

/-- A value as the evaluation makes it: no matrix is a single element, and fields are in order. -/
inductive Normal : Value → Prop
  | logical (b : Bool) : Normal (.logical b)
  | double (x : Float) : Normal (.double x)
  | text (t : Text) : Normal (.text t)
  | matrix {m : Matrix} : ¬ (m.rows = 1 ∧ m.cols = 1) → m.Measured → Normal (.matrix m)
  | cell {items : List Value} : (∀ v ∈ items, Normal v) → Normal (.cell items)
  | struct {fields : Table Value} : Table.Sorted fields → (∀ p ∈ fields, Normal p.2) → Normal (.struct fields)

end Value

namespace Matrix

variable {m a b : Matrix}

theorem scalar?_eq_none (h : m.scalar? = none) : ¬ (m.rows = 1 ∧ m.cols = 1) := by
  intro h1
  rw [scalar?, dif_pos h1] at h
  cases h

theorem measured_of_pos (h : 0 < m.data.size) : m.Measured := fun h0 => absurd h0 (Nat.ne_of_gt h)

theorem counted_zero : Counted 0 := counted_of_lt (by decide)

theorem counted_one : Counted 1 := counted_of_lt (by decide)

theorem measured_of_one_row (h : m.rows = 1) : m.Measured := by
  intro h0
  rw [m.size_data, h, Nat.one_mul] at h0
  rw [h, h0]
  exact ⟨counted_one, counted_zero⟩

theorem measured_row (xs : Array Float) : (row xs).Measured := measured_of_one_row rfl

theorem measured_single (x : Float) : (single x).Measured := measured_row #[x]

theorem measured_empty : empty.Measured := fun _ => ⟨counted_zero, counted_zero⟩

theorem measured_filled {rows cols : Nat} (hr : Counted rows) (hc : Counted cols) (x : Float) :
    (filled rows cols x).Measured := fun _ => ⟨hr, hc⟩

theorem Measured.of_sizes (h : a.Measured) (hr : b.rows = a.rows) (hc : b.cols = a.cols) : b.Measured := by
  intro h0
  rw [b.size_data, hr, hc, ← a.size_data] at h0
  rw [hr, hc]
  exact h h0

theorem Measured.map (h : m.Measured) (f : Float → Float) : (m.map f).Measured := h.of_sizes rfl rfl

/-- Every element stands in a row and a column. -/
theorem exists_get {i : Nat} (h : i < m.data.size) :
    ∃ r c, ∃ (hr : r < m.rows) (hc : c < m.cols), r * m.cols + c = i ∧ m.get r c hr hc = m.data[i] := by
  have hlt : i < m.rows * m.cols := m.size_data ▸ h
  have hcols : 0 < m.cols := Nat.pos_of_ne_zero fun h0 => by simp [h0] at hlt
  have hrow : i / m.cols < m.rows := Nat.div_lt_of_lt_mul (Nat.mul_comm m.rows m.cols ▸ hlt)
  have hback := Nat.div_add_mod' i m.cols
  refine ⟨i / m.cols, i % m.cols, hrow, Nat.mod_lt i hcols, hback, ?_⟩
  simp only [get, hback]

theorem size_transpose (m : Matrix) : m.transpose.data.size = m.data.size := by
  rw [m.transpose.size_data, m.size_data]
  exact Nat.mul_comm m.cols m.rows

theorem Measured.transpose (h : m.Measured) : m.transpose.Measured := fun h0 =>
  (h (m.size_transpose ▸ h0)).symm

theorem Measured.combine {f : Float → Float → Float} (ha : a.Measured) (hb : b.Measured)
    (h : combine? f a b = some m) : m.Measured := by
  unfold combine? at h
  split at h
  · cases h
    exact hb.map _
  · cases h
    exact ha.map _
  · split at h
    · cases h
      exact ha.of_sizes rfl rfl
    · cases h

/-- The sizes of a matrix that is not too large are counted. -/
theorem Measured.counted (h : m.Measured) (hm : m.data.size < 2 ^ 53) : Counted m.rows ∧ Counted m.cols := by
  rcases Nat.eq_zero_or_pos m.data.size with h0 | hpos
  · exact h h0
  · rw [m.size_data] at hpos hm
    have hr := Nat.le_mul_of_pos_right m.rows (Nat.pos_of_mul_pos_left hpos)
    have hc := Nat.le_mul_of_pos_left m.cols (Nat.pos_of_mul_pos_right hpos)
    exact ⟨counted_of_lt (by omega), counted_of_lt (by omega)⟩

end Matrix

namespace Value

variable {Q : Matrix → Prop} {m : Matrix} {v : Value}

theorem Normal.items {items : List Value} (h : Normal (.cell items)) : ∀ v ∈ items, Normal v := by
  cases h
  assumption

theorem Normal.fields {fields : Table Value} (h : Normal (.struct fields)) :
    Table.Sorted fields ∧ ∀ p ∈ fields, Normal p.2 := by
  cases h
  exact ⟨‹_›, ‹_›⟩

/-! ## What a value holds -/

mutual

/-- The values in a value, itself among them. -/
def parts : Value → List Value
  | logical b => [logical b]
  | double x => [double x]
  | text content => [text content]
  | matrix m => [matrix m]
  | cell items => cell items :: partsList items
  | struct fields => struct fields :: partsFields fields

def partsList : List Value → List Value
  | [] => []
  | v :: rest => parts v ++ partsList rest

def partsFields : List (Text × Value) → List Value
  | [] => []
  | (_, v) :: rest => parts v ++ partsFields rest

end

theorem mem_partsList {u : Value} {vs : List Value} : u ∈ partsList vs ↔ ∃ v ∈ vs, u ∈ v.parts := by
  induction vs with
  | nil => simp [partsList]
  | cons v vs ih => simp [partsList, ih]

theorem mem_partsFields {u : Value} {fields : List (Text × Value)} :
    u ∈ partsFields fields ↔ ∃ p ∈ fields, u ∈ p.2.parts := by
  induction fields with
  | nil => simp [partsFields]
  | cons p fields ih =>
    obtain ⟨name, v⟩ := p
    simp [partsFields, ih]

/-! ## Matrices at any depth -/

/-- Every matrix in the value, at any depth, has the property. -/
def Each (Q : Matrix → Prop) (v : Value) : Prop := ∀ m, matrix m ∈ v.parts → Q m

@[simp] theorem each_logical (b : Bool) : Each Q (logical b) := by simp [Each, parts]

@[simp] theorem each_double (x : Float) : Each Q (double x) := by simp [Each, parts]

@[simp] theorem each_text (t : Text) : Each Q (text t) := by simp [Each, parts]

@[simp] theorem each_matrix {m : Matrix} : Each Q (matrix m) ↔ Q m := by simp [Each, parts]

@[simp] theorem each_cell {items : List Value} : Each Q (cell items) ↔ ∀ v ∈ items, Each Q v := by
  simp only [Each, parts, List.mem_cons, reduceCtorEq, false_or, mem_partsList]
  exact ⟨fun h v hv m hm => h m ⟨v, hv, hm⟩, fun h m ⟨v, hv, hm⟩ => h v hv m hm⟩

@[simp] theorem each_struct {fields : List (Text × Value)} :
    Each Q (struct fields) ↔ ∀ p ∈ fields, Each Q p.2 := by
  simp only [Each, parts, List.mem_cons, reduceCtorEq, false_or, mem_partsFields]
  exact ⟨fun h p hp m hm => h m ⟨p, hp, hm⟩, fun h m ⟨p, hp, hm⟩ => h p hp m hm⟩

theorem structural_each : Structural (Each Q) where
  cell := each_cell
  noFields := each_struct.2 nofun
  fields := each_struct.1
  insert h hv := by
    refine each_struct.2 fun p hp => ?_
    rcases Table.mem_insert hp with rfl | hp
    · exact hv
    · exact each_struct.1 h p hp

theorem Each.ofMatrix (h : Q m) : Each Q (ofMatrix m) := by
  unfold Value.ofMatrix
  split
  · exact each_double _
  · exact each_matrix.2 h

theorem Each.ofFlags (h : Q m) : Each Q (ofFlags m) := by
  unfold Value.ofFlags
  split
  · exact each_logical _
  · exact each_matrix.2 h

theorem Each.matrix? (hv : Each Q v) (hsingle : ∀ x, Q (.single x)) (h : v.matrix? = some m) : Q m := by
  cases v with
  | matrix n =>
    cases h
    exact each_matrix.1 hv
  | logical | double =>
    cases h
    exact hsingle _
  | text | cell | struct => cases h

end Value

end ConfigScript
