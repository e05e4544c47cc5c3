import TraceCalculus.Scalar.Basic

/-! # Dense matrices

A `Grid` holds its entries row by row. Operations are given entry by entry through `ofFn`, and
`entry` reads a grid back, so no lemma needs to look at the layout.
-/

set_option autoImplicit false

namespace TraceCalculus

/-- A number of rows and columns. -/
structure Shape where
  rows : Nat
  cols : Nat
  deriving DecidableEq

/-- The shape in messages. -/
def Shape.text (s : Shape) : String :=
  String.ofList (Nat.toDigits 10 s.rows) ++ "x" ++ String.ofList (Nat.toDigits 10 s.cols)

/-- A dense matrix, its entries row by row. -/
structure Grid (S : Type) where
  rows : Nat
  cols : Nat
  data : Array S
  size_eq : data.size = rows * cols

namespace Grid

variable {S : Type}

/-- The number of rows and columns. -/
def shape (m : Grid S) : Shape := ⟨m.rows, m.cols⟩

theorem index_lt {rows cols : Nat} (i : Fin rows) (j : Fin cols) :
    i * cols + j < rows * cols :=
  calc i * cols + j < i * cols + cols := Nat.add_lt_add_left j.isLt _
    _ = (i + 1) * cols := (Nat.succ_mul _ _).symm
    _ ≤ rows * cols := Nat.mul_le_mul_right _ i.isLt

/-- The entry in row `i` and column `j`. -/
def entry (m : Grid S) (i : Fin m.rows) (j : Fin m.cols) : S :=
  have : i.val * m.cols + j.val < m.data.size := m.size_eq ▸ index_lt i j
  m.data[i.val * m.cols + j.val]

theorem cols_pos_of_lt {rows cols k : Nat} (h : k < rows * cols) : 0 < cols :=
  Nat.pos_of_ne_zero fun h0 => by simp [h0] at h

/-- The matrix with the given entries. -/
def ofFn (rows cols : Nat) (f : Fin rows → Fin cols → S) : Grid S where
  rows := rows
  cols := cols
  data := Array.ofFn fun k : Fin (rows * cols) =>
    f ⟨k / cols, Nat.div_lt_of_lt_mul (Nat.mul_comm rows cols ▸ k.isLt)⟩
      ⟨k % cols, Nat.mod_lt _ (cols_pos_of_lt k.isLt)⟩
  size_eq := Array.size_ofFn

@[simp] theorem rows_ofFn (rows cols : Nat) (f : Fin rows → Fin cols → S) :
    (ofFn rows cols f).rows = rows := rfl

@[simp] theorem cols_ofFn (rows cols : Nat) (f : Fin rows → Fin cols → S) :
    (ofFn rows cols f).cols = cols := rfl

@[simp] theorem entry_ofFn {rows cols : Nat} (f : Fin rows → Fin cols → S) (i : Fin rows)
    (j : Fin cols) : (ofFn rows cols f).entry i j = f i j := by
  have hj : 0 < cols := Nat.lt_of_le_of_lt (Nat.zero_le _) j.isLt
  have hdiv : (i.val * cols + j.val) / cols = i.val := by
    rw [Nat.mul_comm, Nat.mul_add_div hj, Nat.div_eq_of_lt j.isLt, Nat.add_zero]
  have hmod : (i.val * cols + j.val) % cols = j.val := by
    rw [Nat.mul_comm, Nat.mul_add_mod, Nat.mod_eq_of_lt j.isLt]
  simp only [entry, ofFn, Array.getElem_ofFn, hdiv, hmod]

/-- The matrix with all entries equal. -/
def fill (rows cols : Nat) (value : S) : Grid S := ofFn rows cols fun _ _ => value

/-- Every entry changed on its own. -/
def map (f : S → S) (m : Grid S) : Grid S := ofFn m.rows m.cols fun i j => f (m.entry i j)

/-- The transpose. -/
def transpose (m : Grid S) : Grid S := ofFn m.cols m.rows fun i j => m.entry j i

/-- The entries of two matrices of one shape joined, none if the shapes differ. -/
def zipWith? (f : S → S → S) (a b : Grid S) : Option (Grid S) :=
  if h : a.rows = b.rows ∧ a.cols = b.cols then
    some (ofFn a.rows a.cols fun i j => f (a.entry i j) (b.entry (i.cast h.1) (j.cast h.2)))
  else none

variable [Scalar S]

/-- The sum of a finite family, from the first member on, starting with zero. -/
def sum (n : Nat) (f : Fin n → S) : S := Fin.foldl n (fun acc k => acc + f k) 0

/-- The identity matrix. -/
def identity (n : Nat) : Grid S := ofFn n n fun i j => if i = j then 1 else 0

/-- The matrix product, none if the inner sizes differ. -/
def mul? (a b : Grid S) : Option (Grid S) :=
  if h : a.cols = b.rows then
    some (ofFn a.rows b.cols fun i j => sum a.cols fun k => a.entry i k * b.entry (k.cast h) j)
  else none

/-- The trace, none unless the matrix is square. -/
def trace? (m : Grid S) : Option S :=
  if h : m.rows = m.cols then some (sum m.rows fun k => m.entry k (k.cast h)) else none

/-- A row as text. -/
def rowText (m : Grid S) (i : Fin m.rows) : String :=
  "[" ++ ", ".intercalate (List.ofFn fun j => Scalar.entryText (m.entry i j)) ++ "]"

/-- The matrix as text, a line a row. -/
def text (m : Grid S) : String :=
  if m.rows = 0 ∨ m.cols = 0 then "[[]]"
  else "[" ++ ",\n ".intercalate (List.ofFn m.rowText) ++ "]"

end Grid

end TraceCalculus
