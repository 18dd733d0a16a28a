import ConfigScript.Number.Whole
/-!
# Matrices

A matrix holds its elements row by row. The number of elements is part of the type, so element
access needs bounds and no default. Subscripts of scripts count from one and run down the
columns: `linear?`.
-/

namespace ConfigScript

structure Matrix where
  rows : Nat
  cols : Nat
  data : Array Float
  size_data : data.size = rows * cols

namespace Matrix

/-- The most elements that one matrix may hold. -/
def maxElements : Nat := 1000000

/-- Whether a matrix of this size may be built. -/
def fits (rows cols : Nat) : Bool := rows * cols ≤ maxElements

theorem offset_lt {rows cols r c : Nat} (hr : r < rows) (hc : c < cols) :
    r * cols + c < rows * cols :=
  calc r * cols + c < r * cols + cols := Nat.add_lt_add_left hc _
    _ = (r + 1) * cols := (Nat.succ_mul r cols).symm
    _ ≤ rows * cols := Nat.mul_le_mul_right cols hr

/-- The element in row `r` and column `c`, counted from zero. -/
def get (m : Matrix) (r c : Nat) (hr : r < m.rows) (hc : c < m.cols) : Float :=
  have : r * m.cols + c < m.data.size := m.size_data ▸ offset_lt hr hc
  m.data[r * m.cols + c]

/-- The matrix whose elements are given by row and column. -/
def ofFn (rows cols : Nat) (f : (r c : Nat) → r < rows → c < cols → Float) : Matrix where
  rows := rows
  cols := cols
  data := Array.ofFn (n := rows * cols) fun i =>
    f (i / cols) (i % cols)
      (Nat.div_lt_of_lt_mul (Nat.mul_comm rows cols ▸ i.isLt))
      (Nat.mod_lt _ (Nat.pos_of_ne_zero fun h => by
        have := i.isLt; simp [h] at this))
  size_data := by simp

def empty : Matrix := ⟨0, 0, #[], rfl⟩

instance : Inhabited Matrix := ⟨empty⟩

/-- One row. -/
def row (data : Array Float) : Matrix := ⟨1, data.size, data, (Nat.one_mul _).symm⟩

/-- One element. -/
def single (x : Float) : Matrix := ⟨1, 1, #[x], rfl⟩

def filled (rows cols : Nat) (x : Float) : Matrix :=
  ⟨rows, cols, Array.replicate (rows * cols) x, by simp⟩

def isEmpty (m : Matrix) : Bool := m.data.isEmpty

/-- One row and one column. -/
def isScalar (m : Matrix) : Bool := m.rows = 1 && m.cols = 1

/-- The element of a matrix with one row and one column. -/
def scalar? (m : Matrix) : Option Float :=
  if h : m.rows = 1 ∧ m.cols = 1 then some (m.get 0 0 (by omega) (by omega)) else none

def transpose (m : Matrix) : Matrix :=
  ofFn m.cols m.rows fun r c hr hc => m.get c r hc hr

/-- The element at a position counted from one down the columns. -/
def linear? (m : Matrix) (position : Nat) : Option Float :=
  if h : 1 ≤ position ∧ position ≤ m.data.size then
    have hp : position - 1 < m.cols * m.rows := by
      have := m.size_data; have := Nat.mul_comm m.rows m.cols; omega
    have hr : 0 < m.rows := Nat.pos_of_ne_zero fun h0 => by simp [h0] at hp
    some (m.get ((position - 1) % m.rows) ((position - 1) / m.rows)
      (Nat.mod_lt _ hr)
      (Nat.div_lt_of_lt_mul (Nat.mul_comm m.cols m.rows ▸ hp)))
  else none

def map (f : Float → Float) (m : Matrix) : Matrix :=
  ⟨m.rows, m.cols, m.data.map f, by simp [m.size_data]⟩

/-- Elements at the same place combined; a matrix of one element goes with every element of the
other. `none` if the sizes do not agree. -/
def combine? (f : Float → Float → Float) (a b : Matrix) : Option Matrix :=
  match a.scalar?, b.scalar? with
  | some x, _ => some (b.map (f x))
  | none, some y => some (a.map (f · y))
  | none, none =>
    if h : a.rows = b.rows ∧ a.cols = b.cols then
      some ⟨a.rows, a.cols, Array.zipWith f a.data b.data, by
        simp [a.size_data, b.size_data, h.1, h.2]⟩
    else none

/-- A sum of numbers. The empty sum is minus zero, which adding leaves every number as it is. -/
def sum (xs : Array Float) : Float := xs.foldl (· + ·) (-0.0)

/-- The product of matrices whose inner sizes agree. -/
def product (a b : Matrix) (h : a.cols = b.rows) : Matrix :=
  ofFn a.rows b.cols fun r c hr hc =>
    Fin.foldl a.cols
      (fun total k => total + a.get r k hr k.isLt * b.get k c (h ▸ k.isLt) hc) (-0.0)

/-- The sum of each column. -/
def columnSums (m : Matrix) : Matrix :=
  ofFn 1 m.cols fun _ c _ hc =>
    Fin.foldl m.rows (fun total r => total + m.get r c r.isLt hc) (-0.0)

end Matrix

end ConfigScript
