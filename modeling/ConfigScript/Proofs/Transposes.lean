import ConfigScript.Proofs.Denotations
/-!
# Transposed brackets

What stands side by side in a bracket stands one below the other once it is transposed, part by part
and as a whole. The two joins lay out their elements in different ways, so they are compared element
by element (`Matrix.get_beside`, `Matrix.get_stack`), and the transpose of one is the other
(`Matrix.transpose_beside`). Both leave empty parts out, refuse the same sizes and make a number of a
single element, so it holds of brackets too (`Value.stacked_flipped`).
-/

namespace ConfigScript

/-! ## Elements -/

namespace Matrix

variable {a b m : Matrix} {ms : List Matrix} {rows cols r c : Nat}

/-- A matrix is known by its sizes and its elements. -/
theorem ext_get (hr : a.rows = b.rows) (hc : a.cols = b.cols)
    (h : ∀ r c (har : r < a.rows) (hac : c < a.cols) (hbr : r < b.rows) (hbc : c < b.cols),
      a.get r c har hac = b.get r c hbr hbc) : a = b := by
  refine eq_of_data hr hc (Array.ext (by rw [a.size_data, b.size_data, hr, hc]) fun i hi hi' => ?_)
  obtain ⟨r, c, har, hac, rfl, -⟩ := exists_get hi
  have := h r c har hac (hr ▸ har) (hc ▸ hac)
  simpa only [get, ← hc] using this

theorem get_ofFn (f : (r c : Nat) → r < rows → c < cols → Float) (hr : r < rows) (hc : c < cols) :
    (ofFn rows cols f).get r c hr hc = f r c hr hc := by
  have hrow : (r * cols + c) / cols = r := by
    rw [Nat.mul_comm, Nat.mul_add_div (by omega), Nat.div_eq_of_lt hc, Nat.add_zero]
  have hcol : (r * cols + c) % cols = c := by
    rw [Nat.mul_add_mod', Nat.mod_eq_of_lt hc]
  have hcongr : ∀ r' c' (hr' : r' < rows) (hc' : c' < cols), r' = r → c' = c →
      f r' c' hr' hc' = f r c hr hc := by
    rintro _ _ _ _ rfl rfl
    rfl
  simp only [get, ofFn, Array.getElem_ofFn]
  exact hcongr _ _ _ _ hrow hcol

theorem get_transpose (hr : r < m.transpose.rows) (hc : c < m.transpose.cols) :
    m.transpose.get r c hr hc = m.get c r hc hr :=
  get_ofFn (fun r c hr hc => m.get c r hc hr) hr hc

theorem isEmpty_transpose (m : Matrix) : m.transpose.isEmpty = m.isEmpty := by
  simp only [isEmpty, Array.isEmpty, size_transpose]

theorem transpose_single (x : Float) : (single x).transpose = single x := by
  refine ext_get rfl rfl fun r c hr hc hbr hbc => ?_
  obtain rfl : r = 0 := Nat.lt_one_iff.1 hbr
  obtain rfl : c = 0 := Nat.lt_one_iff.1 hbc
  exact get_transpose hr hc

theorem transpose_empty : empty.transpose = empty := eq_of_data rfl rfl (by simp [transpose, ofFn, empty])

/-! ## Joined parts -/

theorem stackData_cons (m : Matrix) (ms : List Matrix) : stackData (m :: ms) = m.data ++ stackData ms := by
  have hfold : ∀ (ms : List Matrix) (data : Array Float),
      ms.foldl (fun data m => data ++ m.data) data = data ++ ms.foldl (fun data m => data ++ m.data) #[] := by
    intro ms
    induction ms with
    | nil => simp
    | cons m ms ih =>
      intro data
      rw [List.foldl_cons, List.foldl_cons, ih (data ++ m.data), ih (#[] ++ m.data), Array.append_assoc]
      simp
  rw [stackData, List.foldl_cons, hfold]
  simp [stackData]

/-- Below the rows of the first part are those of the others. -/
theorem get_stack (h : ∀ n ∈ m :: ms, n.cols = cols) (hr : r < (stack cols (m :: ms) h).rows)
    (hc : c < cols) : (stack cols (m :: ms) h).get r c hr hc =
      if hm : r < m.rows then m.get r c hm (h m List.mem_cons_self ▸ hc)
      else (stack cols ms fun n hn => h n (List.mem_cons_of_mem m hn)).get (r - m.rows) c
        (by change r < m.rows + height ms at hr; show _ < height ms; omega) hc := by
  have hcols := h m List.mem_cons_self
  subst hcols
  have hsize := m.size_data
  simp only [get, stack, stackData_cons]
  split
  · next hm => exact Array.getElem_append_left (hsize ▸ offset_lt hm hc)
  · next hm =>
    have hle : m.rows * m.cols ≤ r * m.cols := Nat.mul_le_mul_right _ (Nat.not_lt.1 hm)
    rw [Array.getElem_append_right (by omega)]
    congr 1
    rw [Nat.sub_mul, hsize]
    omega

/-- Where all pieces have one length, an element is found by its piece and its place in it. -/
theorem getElem?_flatMap_const {α β : Type} {l : List α} {f : α → List β} {n i j : Nat}
    (h : ∀ a ∈ l, (f a).length = n) (hi : i < l.length) (hj : j < n) :
    (l.flatMap f)[i * n + j]? = (f l[i])[j]? := by
  induction l generalizing i with
  | nil => cases hi
  | cons a l ih =>
    have ha := h a List.mem_cons_self
    rw [List.flatMap_cons]
    cases i with
    | zero => rw [Nat.zero_mul, Nat.zero_add, List.getElem?_append_left (ha ▸ hj), List.getElem_cons_zero]
    | succ i =>
      rw [Nat.succ_mul, List.getElem?_append_right (by omega), ha,
        show i * n + n + j - n = i * n + j by omega, List.getElem_cons_succ]
      exact ih (fun b hb => h b (List.mem_cons_of_mem a hb)) (Nat.lt_of_succ_lt_succ hi)

theorem length_flatMap_rowList (h : ∀ m ∈ ms, m.rows = rows) (hr : r < rows) :
    (ms.flatMap (·.rowList r)).length = width ms := by
  induction ms with
  | nil => rfl
  | cons m ms ih =>
    have hm : r < m.rows := by rw [h m List.mem_cons_self]; exact hr
    rw [List.flatMap_cons, List.length_append, rowList_length hm, ih fun n hn => h n (List.mem_cons_of_mem m hn), width]

theorem getElem?_rowList (hr : r < m.rows) (hc : c < m.cols) : (m.rowList r)[c]? = some (m.get r c hr hc) := by
  have hlt : r * m.cols + c < m.data.size := m.size_data ▸ offset_lt hr hc
  have hle : r * m.cols + m.cols ≤ m.data.size := by
    rw [m.size_data, ← Nat.succ_mul]
    exact Nat.mul_le_mul_right _ hr
  simp [rowList, get, hlt, hc]

/-- A row of the whole is the rows of the parts. -/
theorem getElem?_beside (h : ∀ m ∈ ms, m.rows = rows) (hr : r < rows) (hc : c < width ms) :
    (ms.flatMap (·.rowList r))[c]? = some ((beside rows ms h).get r c hr hc) := by
  have hlength : ∀ r ∈ List.range rows, (ms.flatMap (·.rowList r)).length = width ms :=
    fun r hr => length_flatMap_rowList h (List.mem_range.1 hr)
  have hblocks := getElem?_flatMap_const hlength (by rwa [List.length_range]) hc
  rw [List.getElem_range] at hblocks
  rw [← hblocks, ← List.getElem?_toArray]
  exact Array.getElem?_eq_getElem _

/-- To the right of the columns of the first part are those of the others. -/
theorem get_beside (h : ∀ n ∈ m :: ms, n.rows = rows) (hr : r < rows)
    (hc : c < (beside rows (m :: ms) h).cols) : (beside rows (m :: ms) h).get r c hr hc =
      if hm : c < m.cols then m.get r c (h m List.mem_cons_self ▸ hr) hm
      else (beside rows ms fun n hn => h n (List.mem_cons_of_mem m hn)).get r (c - m.cols) hr
        (by change c < m.cols + width ms at hc; show _ < width ms; omega) := by
  have hm : r < m.rows := h m List.mem_cons_self ▸ hr
  have hwhole := getElem?_beside h hr hc
  rw [List.flatMap_cons] at hwhole
  split
  · next hleft =>
    rw [List.getElem?_append_left (by rwa [rowList_length hm]), getElem?_rowList hm hleft] at hwhole
    exact (Option.some.inj hwhole).symm
  · next hright =>
    rw [List.getElem?_append_right (by rw [rowList_length hm]; omega), rowList_length hm,
      getElem?_beside fun n hn => h n (List.mem_cons_of_mem m hn)] at hwhole
    exact (Option.some.inj hwhole).symm

/-- The transposed parts are together as high as the parts are wide. -/
theorem height_transpose (ms : List Matrix) : height (ms.map transpose) = width ms := by
  induction ms with
  | nil => rfl
  | cons m ms ih =>
    rw [List.map_cons, height, width, ih]
    rfl

theorem cols_transpose (h : ∀ m ∈ ms, m.rows = rows) : ∀ n ∈ ms.map transpose, n.cols = rows := by
  intro n hn
  obtain ⟨m, hm, rfl⟩ := List.mem_map.1 hn
  exact h m hm

theorem get_stack_transpose (h : ∀ m ∈ ms, m.rows = rows) (hr : r < (stack rows (ms.map transpose) (cols_transpose h)).rows)
    (hr' : r < (beside rows ms h).cols) (hc : c < rows) :
    (stack rows (ms.map transpose) (cols_transpose h)).get r c hr hc = (beside rows ms h).get c r hc hr' := by
  induction ms generalizing r with
  | nil => exact absurd hr (Nat.not_lt_zero r)
  | cons m ms ih =>
    -- rows of the one and columns of the other lie in the first part, or behind it
    rw [get_beside]
    refine (get_stack (m := m.transpose) _ hr hc).trans ?_
    by_cases hm : r < m.cols
    · rw [dif_pos hm]
      exact (dif_pos hm).trans (get_transpose hm _)
    · rw [dif_neg hm]
      exact (dif_neg hm).trans (ih _ _ _)

/-- Parts side by side are transposed to their transposes one below the other. -/
theorem transpose_beside (h : ∀ m ∈ ms, m.rows = rows) :
    (beside rows ms h).transpose = stack rows (ms.map transpose) (cols_transpose h) :=
  ext_get (height_transpose ms).symm rfl fun _ _ hr hc hr' _ =>
    (get_transpose hr hc).trans (get_stack_transpose h hr' hr hc).symm

end Matrix

namespace Value

variable {v w : Value} {m : Matrix} {values : List Value}

/-! ## Values with numbers -/

theorem exists_matrix? (h : v.kind = .logical ∨ v.kind = .double ∨ v.kind = .matrix) : ∃ m, v.matrix? = some m := by
  cases v with
  | logical | double | matrix => exact ⟨_, rfl⟩
  | text | cell | struct => simp [kind] at h

theorem kind_of_matrix? (h : v.matrix? = some m) : v.isText = false ∧ v.isCell = false := by
  cases v with
  | logical | double | matrix => exact ⟨rfl, rfl⟩
  | text | cell | struct => cases h

/-- The transpose of a value with numbers. -/
def flipped : Value → Value
  | matrix m => .matrix m.transpose
  | v => v

theorem transpose_of_matrix? (h : v.matrix? = some m) :
    v.transpose = .ok v.flipped ∧ v.flipped.matrix? = some m.transpose := by
  cases v with
  | matrix =>
    cases h
    exact ⟨rfl, rfl⟩
  | logical | double =>
    cases h
    rw [Matrix.transpose_single]
    exact ⟨rfl, rfl⟩
  | text | cell | struct => cases h

/-! ## Brackets -/

/-- The numbers of a value that has some. -/
def numbers (v : Value) : Matrix := v.matrix?.getD .empty

theorem matrix?_numbers (h : ∃ m, v.matrix? = some m) : v.matrix? = some v.numbers := by
  obtain ⟨m, hm⟩ := h
  rw [numbers, hm]
  rfl

theorem numericParts_numbers (h : ∀ v ∈ values, ∃ m, v.matrix? = some m) :
    numericParts values = .ok ((values.map numbers).filter (!·.isEmpty)) := by
  refine bind_eq_ok.2 ⟨values.map numbers, mapM_eq_map fun v hv => ?_, rfl⟩
  rw [matrix?_numbers (h v hv)]

/-- The parts of the transposed values are the parts transposed. -/
theorem rowParts_flipped (h : ∀ v ∈ values, ∃ m, v.matrix? = some m) :
    rowParts (values.map flipped) = .ok (((values.map numbers).filter (!·.isEmpty)).map Matrix.transpose) := by
  refine bind_eq_ok.2 ⟨(values.map numbers).map Matrix.transpose, mapM_eq_ok.2 ?_, ?_⟩
  · rw [List.map_map, List.forall₂_map_left_iff, List.forall₂_map_right_iff, List.forall₂_same]
    intro v hv
    have hflipped := (transpose_of_matrix? (matrix?_numbers (h v hv))).2
    rw [(kind_of_matrix? hflipped).1, hflipped]
    rfl
  · rw [List.filter_map]
    simp only [Function.comp_def, Matrix.isEmpty_transpose]
    rfl

/-- Several values with numbers are joined by their parts. -/
theorem exists_parts {u : Value} (h : ∀ w ∈ u :: v :: values, ∃ m, w.matrix? = some m) :
    ∃ parts, beside (u :: v :: values) = besideParts parts ∧
      stacked ((u :: v :: values).map flipped) = stackedParts (parts.map Matrix.transpose) := by
  have hkind : ∀ w ∈ u :: v :: values, w.isText = false ∧ w.isCell = false ∧ w.flipped.isCell = false :=
    fun w hw =>
      have hm := matrix?_numbers (h w hw)
      ⟨(kind_of_matrix? hm).1, (kind_of_matrix? hm).2, (kind_of_matrix? (transpose_of_matrix? hm).2).2⟩
  refine ⟨((u :: v :: values).map numbers).filter (!·.isEmpty), ?_, ?_⟩
  · rw [beside_of_numbers (by simp), numericParts_numbers h]
    · rfl
    · exact List.any_eq_false.2 fun w hw => by simp [hkind w hw]
    · exact List.any_eq_false.2 fun w hw => by simp [hkind w hw]
  · rw [stacked_of_numbers (by simp) (by simp), rowParts_flipped h]
    · rfl
    · rw [List.any_map]
      exact List.any_eq_false.2 fun w hw => by simp [hkind w hw]

/-- The outcome of a bracket row, turned into that of a column. -/
def turned : Except Fault Value → Except Fault Value
  | .ok v => .ok v.flipped
  | .error (.tooLarge rows cols) => .error (.tooLarge cols rows)
  | .error fault => .error fault

theorem flipped_empty : Value.empty.flipped = .empty := congrArg Value.matrix Matrix.transpose_empty

theorem flipped_ofMatrix (m : Matrix) : (ofMatrix m).flipped = ofMatrix m.transpose := by
  unfold ofMatrix
  cases h : m.scalar? with
  | some x =>
    obtain rfl := Matrix.data_of_scalar h
    rw [Matrix.transpose_single, h]
    rfl
  | none =>
    have hnone : m.transpose.scalar? = none := dif_neg fun hone => Matrix.scalar?_eq_none h hone.symm
    rw [hnone]
    rfl

/-- Where the parts side by side are refused, the transposed parts are, for the sizes exchanged. -/
theorem stackedParts_transpose (parts : List Matrix) :
    stackedParts (parts.map Matrix.transpose) = turned (besideParts parts) := by
  cases parts with
  | nil => exact congrArg Except.ok flipped_empty.symm
  | cons first rest =>
    have hheight := Matrix.height_transpose (first :: rest)
    rw [List.map_cons] at hheight ⊢
    simp only [stackedParts, besideParts, hheight]
    by_cases hsizes : ∀ m ∈ first :: rest, m.rows = first.rows
    · have hcols : ∀ m ∈ first.transpose :: rest.map Matrix.transpose, m.cols = first.transpose.cols :=
        Matrix.cols_transpose hsizes
      have hfits : Matrix.fits (Matrix.width (first :: rest)) first.transpose.cols =
          Matrix.fits first.rows (Matrix.width (first :: rest)) :=
        congrArg (fun count => decide (count ≤ Matrix.maxElements)) (Nat.mul_comm _ _)
      rw [dif_pos hsizes, dif_pos hcols, hfits]
      split
      · refine congrArg Except.ok ?_
        rw [flipped_ofMatrix, Matrix.transpose_beside]
        rfl
      · rfl
    · rw [dif_neg hsizes, dif_neg fun h => hsizes fun m hm => h m.transpose (List.mem_map_of_mem hm)]
      rfl

theorem matrix?_besideParts {parts : List Matrix} (h : besideParts parts = .ok w) : ∃ m, w.matrix? = some m := by
  unfold besideParts at h
  split at h
  · cases h
    exact ⟨_, rfl⟩
  · split at h
    · split at h
      · cases h
        exact ⟨_, matrix?_ofMatrix _⟩
      · cases h
    · cases h

theorem matrix?_beside (hvs : ∀ v ∈ values, ∃ m, v.matrix? = some m) (h : beside values = .ok w) :
    ∃ m, w.matrix? = some m := by
  match values with
  | [] =>
    cases h
    exact ⟨_, rfl⟩
  | [v] =>
    cases h
    exact hvs w List.mem_cons_self
  | u :: v :: values =>
    obtain ⟨parts, hbeside, -⟩ := exists_parts hvs
    exact matrix?_besideParts (hbeside.symm.trans h)

theorem stacked_flipped (h : ∀ v ∈ values, ∃ m, v.matrix? = some m) :
    stacked (values.map flipped) = turned (beside values) := by
  match values with
  | [] => exact congrArg Except.ok flipped_empty.symm
  | [v] => rfl
  | u :: v :: values =>
    obtain ⟨parts, hbeside, hstacked⟩ := exists_parts h
    rw [hbeside, hstacked, stackedParts_transpose]

theorem turned_eq_ok {x : Except Fault Value} : turned x = .ok w ↔ ∃ v, x = .ok v ∧ v.flipped = w := by
  cases x with
  | ok v => simp [turned]
  | error fault => cases fault <;> simp [turned]

/-- Values with numbers, transposed one by one and put one below the other, are their bracket row
transposed. The one fails where the other does, for the same sizes. -/
theorem stacked_transposes (h : ∀ v ∈ values, v.kind = .logical ∨ v.kind = .double ∨ v.kind = .matrix) :
    ∃ columns, values.mapM transpose = .ok columns ∧
      ((∃ w, stacked columns = .ok w) ↔ ∃ v, beside values = .ok v) ∧
      (∀ v, beside values = .ok v → ∃ w, v.transpose = .ok w ∧ stacked columns = .ok w) ∧
      (stacked columns = .error .joinedSizes ↔ beside values = .error .joinedSizes) ∧
      ∀ rows cols, stacked columns = .error (.tooLarge rows cols) ↔ beside values = .error (.tooLarge cols rows) := by
  have hnumbers : ∀ v ∈ values, ∃ m, v.matrix? = some m := fun v hv => exists_matrix? (h v hv)
  refine ⟨values.map flipped, mapM_eq_map fun v hv => ?_, ?_, fun v hv => ?_, ?_, fun rows cols => ?_⟩
  · exact (transpose_of_matrix? (matrix?_numbers (hnumbers v hv))).1
  · rw [stacked_flipped hnumbers]
    simp [turned_eq_ok]
  · obtain ⟨m, hm⟩ := matrix?_beside hnumbers hv
    exact ⟨v.flipped, (transpose_of_matrix? hm).1, (stacked_flipped hnumbers).trans (turned_eq_ok.2 ⟨v, hv, rfl⟩)⟩
  · rw [stacked_flipped hnumbers]
    cases beside values with
    | ok v => simp [turned]
    | error fault => cases fault <;> simp [turned]
  · rw [stacked_flipped hnumbers]
    cases beside values with
    | ok v => simp [turned]
    | error fault => cases fault <;> simp [turned, and_comm]

/-- A row of two, nothing and a number make a column of three. -/
theorem stacked_transposes_row :
    (∀ v ∈ [Value.matrix (.row #[1.0, 2.0]), .empty, .double 3.0],
      v.kind = .logical ∨ v.kind = .double ∨ v.kind = .matrix) ∧
    ∃ columns, [.matrix (.row #[1.0, 2.0]), .empty, .double 3.0].mapM transpose = .ok columns ∧
      stacked columns = .ok (.matrix (Matrix.row #[1.0, 2.0, 3.0]).transpose) := by
  have hkinds : ∀ v ∈ [Value.matrix (.row #[1.0, 2.0]), .empty, .double 3.0],
      v.kind = .logical ∨ v.kind = .double ∨ v.kind = .matrix := by simp [kind, empty]
  obtain ⟨columns, hcolumns, -, hjoined, -⟩ := stacked_transposes hkinds
  have hbeside : beside [.matrix (.row #[1.0, 2.0]), .empty, .double 3.0] =
      .ok (.matrix (.row #[1.0, 2.0, 3.0])) := rfl
  obtain ⟨w, hw, hstacked⟩ := hjoined _ hbeside
  cases hw
  exact ⟨hkinds, columns, hcolumns, hstacked⟩

end Value

end ConfigScript
