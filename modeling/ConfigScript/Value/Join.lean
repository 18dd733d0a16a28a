import ConfigScript.Fault
/-!
# Concatenation

`besides` joins the elements of one bracket row, `stacked` joins the rows. Texts join to text,
anything with a cell to a cell, and numbers to a matrix; empty matrices are passed over.
-/

namespace ConfigScript

namespace Matrix

/-- The columns of the parts together. -/
def width : List Matrix → Nat
  | [] => 0
  | m :: parts => m.cols + width parts

/-- The rows of the parts together. -/
def height : List Matrix → Nat
  | [] => 0
  | m :: parts => m.rows + height parts

/-- The elements of the parts side by side, row by row. -/
def besideData (rows : Nat) (parts : List Matrix) : Array Float :=
  ((List.range rows).flatMap fun r => parts.flatMap (·.rowList r)).toArray

theorem rowList_length {m : Matrix} {r : Nat} (hr : r < m.rows) :
    (m.rowList r).length = m.cols := by
  have h : r * m.cols + m.cols ≤ m.data.size := by
    rw [m.size_data, ← Nat.succ_mul]
    exact Nat.mul_le_mul_right _ hr
  simp [rowList]
  omega

theorem length_flatMap_const {α β : Type} (l : List α) (f : α → List β) (n : Nat)
    (h : ∀ a ∈ l, (f a).length = n) : (l.flatMap f).length = l.length * n := by
  induction l with
  | nil => simp
  | cons a l ih =>
    simp only [List.flatMap_cons, List.length_append, List.length_cons, h a List.mem_cons_self,
      ih fun b hb => h b (List.mem_cons_of_mem _ hb), Nat.succ_mul]
    omega

theorem besideData_size {rows : Nat} {parts : List Matrix} (h : ∀ m ∈ parts, m.rows = rows) :
    (besideData rows parts).size = rows * width parts := by
  have row : ∀ r ∈ List.range rows, (parts.flatMap (·.rowList r)).length = width parts := by
    intro r hr
    replace hr : r < rows := List.mem_range.1 hr
    induction parts with
    | nil => rfl
    | cons m parts ih =>
      have hm : r < m.rows := by rw [h m List.mem_cons_self]; exact hr
      simp [width, rowList_length hm, ih fun p hp => h p (List.mem_cons_of_mem _ hp)]
  have := length_flatMap_const (List.range rows) (fun r => parts.flatMap (·.rowList r)) _ row
  simpa [besideData] using this

/-- The parts side by side. -/
def beside (rows : Nat) (parts : List Matrix) (h : ∀ m ∈ parts, m.rows = rows) : Matrix :=
  ⟨rows, width parts, besideData rows parts, besideData_size h⟩

/-- The elements of the parts one below the other. -/
def stackData (parts : List Matrix) : Array Float :=
  parts.foldl (fun data m => data ++ m.data) #[]

theorem foldl_append_size {cols : Nat} {parts : List Matrix} (h : ∀ m ∈ parts, m.cols = cols)
    (data : Array Float) :
    (parts.foldl (fun data m => data ++ m.data) data).size = data.size + height parts * cols := by
  induction parts generalizing data with
  | nil => simp [height]
  | cons m parts ih =>
    rw [List.foldl_cons, ih (fun p hp => h p (List.mem_cons_of_mem _ hp)), Array.size_append,
      m.size_data, h m List.mem_cons_self, height, Nat.add_mul, Nat.add_assoc]

theorem stackData_size {cols : Nat} {parts : List Matrix} (h : ∀ m ∈ parts, m.cols = cols) :
    (stackData parts).size = height parts * cols := by
  rw [stackData, foldl_append_size h, Array.size_empty, Nat.zero_add]

/-- The parts one below the other. -/
def stack (cols : Nat) (parts : List Matrix) (h : ∀ m ∈ parts, m.cols = cols) : Matrix :=
  ⟨height parts, cols, stackData parts, stackData_size h⟩

end Matrix

namespace Value

/-- The numbers of the values, empty ones left out. -/
def numericParts (values : List Value) : Except Fault (List Matrix) := do
  let parts ← values.mapM fun v =>
    match v.matrix? with
    | some m => .ok m
    | none => .error (.joined v.kind)
  return parts.filter (!·.isEmpty)

def isText : Value → Bool
  | text _ => true
  | _ => false

def isCell : Value → Bool
  | cell _ => true
  | _ => false

/-- One text from texts and empty matrices. -/
def joinedText : List Value → Except Fault Text
  | [] => .ok []
  | text content :: rest => return content ++ (← joinedText rest)
  | v :: rest => if v.isBlankMatrix then joinedText rest else .error (.joinedText v.kind)

/-- The elements of cells, and other values as elements. -/
def joinedItems (values : List Value) : List Value :=
  values.flatMap fun
    | cell items => items
    | v => [v]

/-- The values of one bracket row side by side. A value alone stays as it is. -/
def beside (values : List Value) : Except Fault Value :=
  match values with
  | [v] => .ok v
  | _ =>
    if values.any isText then return .text (← joinedText values)
    else if values.any isCell then .ok (.cell (joinedItems (values.filter (!·.isBlankMatrix))))
    else do
      let parts ← numericParts values
      match parts with
      | [] => return .empty
      | first :: _ =>
        if h : ∀ m ∈ parts, m.rows = first.rows then
          if Matrix.fits first.rows (Matrix.width parts) then
            return ofMatrix (.beside first.rows parts h)
          else .error (.tooLarge first.rows (Matrix.width parts))
        else .error .joinedSizes

/-- The numbers of rows; text makes no row of a matrix. -/
def rowParts (rows : List Value) : Except Fault (List Matrix) := do
  let parts ← rows.mapM fun v =>
    if v.isText then .error .textRows
    else
      match v.matrix? with
      | some m => .ok m
      | none => .error (.joined v.kind)
  return parts.filter (!·.isEmpty)

/-- The rows of a bracket one below the other. -/
def stacked (rows : List Value) : Except Fault Value :=
  match rows with
  | [] => .ok .empty
  | [v] => .ok v
  | _ =>
    if rows.any isCell then .ok (.cell (joinedItems rows))
    else do
      let parts ← rowParts rows
      match parts with
      | [] => return .empty
      | first :: _ =>
        if h : ∀ m ∈ parts, m.cols = first.cols then
          if Matrix.fits (Matrix.height parts) first.cols then
            return ofMatrix (.stack first.cols parts h)
          else .error (.tooLarge (Matrix.height parts) first.cols)
        else .error .joinedSizes

end Value

end ConfigScript
