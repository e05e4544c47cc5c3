import Mathlib.LinearAlgebra.Matrix.Trace
import TraceCalculus.Proofs.ExactScalar
import TraceCalculus.Value.Basic

/-! # Values as matrices

Every grid is `Grid.ofMatrix M` for a matrix `M` (`Grid.exists_ofMatrix`), and every operation on
grids is the operation on matrices. A value is a scalar or such a matrix (`Value.exists_eq`), so the
laws of matrix algebra become laws of values.

Scalars need no product of their own: a product with a scalar on either side scales the other side
(`Value.scalar_mul`, `Value.mul_scalar`), and scaling commutes with every operation. What is left of
a product is a product of matrices (`Value.mul_cases`). Sums are the ones between values of one type
(`Value.Sum`); the evaluator also joins a scalar with each entry of a matrix, which satisfies few
laws.
-/

set_option autoImplicit false

namespace TraceCalculus

open Matrix

namespace Grid

variable {S : Type}

/-- The grid with the entries of a matrix. -/
def ofMatrix {m n : Nat} (M : Matrix (Fin m) (Fin n) S) : Grid S := ofFn m n M

@[simp] theorem rows_ofMatrix {m n : Nat} (M : Matrix (Fin m) (Fin n) S) :
    (ofMatrix M).rows = m := rfl

@[simp] theorem cols_ofMatrix {m n : Nat} (M : Matrix (Fin m) (Fin n) S) :
    (ofMatrix M).cols = n := rfl

@[simp] theorem entry_ofMatrix {m n : Nat} (M : Matrix (Fin m) (Fin n) S) (i : Fin m) (j : Fin n) :
    (ofMatrix M).entry i j = M i j :=
  entry_ofFn M i j

theorem exists_ofMatrix (g : Grid S) :
    ∃ (m n : Nat) (M : Matrix (Fin m) (Fin n) S), g = ofMatrix M := by
  refine ⟨g.rows, g.cols, g.entry, ?_⟩
  obtain ⟨rows, cols, data, hsize⟩ := g
  simp only [ofMatrix, ofFn, mk.injEq, true_and]
  refine Array.ext (by simp [hsize]) fun k hk _ => ?_
  simp [entry, Nat.div_add_mod']

theorem ofMatrix_eq {m n p q : Nat} {M : Matrix (Fin m) (Fin n) S} {N : Matrix (Fin p) (Fin q) S}
    (h : ofMatrix M = ofMatrix N) : m = p ∧ n = q := by
  exact ⟨congrArg rows h, congrArg cols h⟩

theorem ofMatrix_injective {m n : Nat} :
    Function.Injective (ofMatrix : Matrix (Fin m) (Fin n) S → Grid S) := by
  intro M N h
  have key : ∀ g : Grid S, ∀ hr : m = g.rows, ∀ hc : n = g.cols, ofMatrix M = g →
      ∀ i j, M i j = g.entry (i.cast hr) (j.cast hc) := by
    rintro _ _ _ rfl i j
    simp
  ext i j
  simpa using key (ofMatrix N) rfl rfl h i j

@[simp] theorem ofMatrix_inj {m n : Nat} {M N : Matrix (Fin m) (Fin n) S} :
    ofMatrix M = ofMatrix N ↔ M = N :=
  ofMatrix_injective.eq_iff

@[simp] theorem map_ofMatrix {m n : Nat} (f : S → S) (M : Matrix (Fin m) (Fin n) S) :
    (ofMatrix M).map f = ofMatrix (M.map f) :=
  congrArg (ofFn m n) (funext₂ fun i j => congrArg f (entry_ofMatrix M i j))

@[simp] theorem transpose_ofMatrix {m n : Nat} (M : Matrix (Fin m) (Fin n) S) :
    (ofMatrix M).transpose = ofMatrix Mᵀ :=
  congrArg (ofFn n m) (funext₂ fun i j => entry_ofMatrix M j i)

@[simp] theorem zipWith?_ofMatrix {m n : Nat} (f : S → S → S) (M N : Matrix (Fin m) (Fin n) S) :
    (ofMatrix M).zipWith? f (ofMatrix N) = some (ofMatrix (.of fun i j => f (M i j) (N i j))) := by
  simp only [zipWith?, rows_ofMatrix, cols_ofMatrix, and_self, ↓reduceDIte, Option.some.injEq]
  exact congrArg (ofFn m n) (by ext i j; simp)

variable [ExactScalar S]

theorem sum_eq (n : Nat) (f : Fin n → S) : sum n f = ∑ k, f k := by
  unfold sum
  induction n with
  | zero => simp
  | succ n ih => rw [Fin.foldl_succ_last, Fin.sum_univ_castSucc, ih]

@[simp] theorem mul?_ofMatrix {m k n : Nat} (M : Matrix (Fin m) (Fin k) S)
    (N : Matrix (Fin k) (Fin n) S) : (ofMatrix M).mul? (ofMatrix N) = some (ofMatrix (M * N)) := by
  simp only [mul?, rows_ofMatrix, cols_ofMatrix, ↓reduceDIte, Option.some.injEq]
  exact congrArg (ofFn m n) (by ext i j; simp [sum_eq, Matrix.mul_apply])

@[simp] theorem trace?_ofMatrix {n : Nat} (M : Matrix (Fin n) (Fin n) S) :
    (ofMatrix M).trace? = some M.trace := by
  simp [trace?, sum_eq, Matrix.trace]

@[simp] theorem identity_eq (n : Nat) :
    (identity n : Grid S) = ofMatrix (1 : Matrix (Fin n) (Fin n) S) :=
  congrArg (ofFn n n) (funext₂ fun _ _ => Matrix.one_apply.symm)

end Grid

namespace Value

variable {S : Type}

/-- The value that is a matrix. -/
def ofMatrix {m n : Nat} (M : Matrix (Fin m) (Fin n) S) : Value S := .matrix (.ofMatrix M)

/-- A value is a scalar or a matrix. -/
theorem exists_eq (v : Value S) :
    (∃ x, v = .scalar x) ∨ ∃ (m n : Nat) (M : Matrix (Fin m) (Fin n) S), v = ofMatrix M := by
  obtain x | g := v
  · exact .inl ⟨x, rfl⟩
  · obtain ⟨m, n, M, rfl⟩ := g.exists_ofMatrix
    exact .inr ⟨m, n, M, rfl⟩

theorem ofMatrix_eq {m n p q : Nat} {M : Matrix (Fin m) (Fin n) S} {N : Matrix (Fin p) (Fin q) S}
    (h : ofMatrix M = ofMatrix N) : m = p ∧ n = q :=
  Grid.ofMatrix_eq (matrix.inj h)

@[simp] theorem ofMatrix_inj {m n : Nat} {M N : Matrix (Fin m) (Fin n) S} :
    ofMatrix M = ofMatrix N ↔ M = N := by
  simp [ofMatrix]

@[simp] theorem scalar_ne_ofMatrix {m n : Nat} (x : S) (M : Matrix (Fin m) (Fin n) S) :
    .scalar x ≠ ofMatrix M := by
  simp [ofMatrix]

@[simp] theorem ofMatrix_ne_scalar {m n : Nat} (x : S) (M : Matrix (Fin m) (Fin n) S) :
    ofMatrix M ≠ .scalar x := by
  simp [ofMatrix]

/-- Whether the value is a matrix. -/
def isMatrix : Value S → Bool
  | .scalar _ => false
  | .matrix _ => true

@[simp] theorem isMatrix_scalar (x : S) : (Value.scalar x).isMatrix = false := rfl

@[simp] theorem isMatrix_ofMatrix {m n : Nat} (M : Matrix (Fin m) (Fin n) S) :
    (ofMatrix M).isMatrix = true := rfl

@[simp] theorem transpose_scalar (x : S) : (Value.scalar x).transpose = .scalar x := rfl

@[simp] theorem transpose_ofMatrix {m n : Nat} (M : Matrix (Fin m) (Fin n) S) :
    (ofMatrix M).transpose = ofMatrix Mᵀ := by
  simp [transpose, ofMatrix]

@[simp] theorem transpose_transpose (v : Value S) : v.transpose.transpose = v := by
  obtain ⟨z, rfl⟩ | ⟨m, n, M, rfl⟩ := v.exists_eq <;> simp

@[simp] theorem isMatrix_transpose (v : Value S) : v.transpose.isMatrix = v.isMatrix := by
  cases v <;> rfl

variable [ExactScalar S]

/-- Every entry multiplied by a scalar. -/
def scaleBy (x : S) : Value S → Value S
  | .scalar y => .scalar (x * y)
  | .matrix m => .matrix (m.map (x * ·))

@[simp] theorem scaleBy_scalar (x y : S) : (Value.scalar y).scaleBy x = .scalar (x * y) := rfl

@[simp] theorem scaleBy_ofMatrix {m n : Nat} (x : S) (M : Matrix (Fin m) (Fin n) S) :
    (ofMatrix M).scaleBy x = ofMatrix (x • M) := by
  simp only [scaleBy, ofMatrix, Grid.map_ofMatrix]
  rfl

@[simp] theorem isMatrix_scaleBy (x : S) (v : Value S) : (v.scaleBy x).isMatrix = v.isMatrix := by
  cases v <;> rfl

/-- Whether every entry is zero. -/
def IsZero : Value S → Prop
  | .scalar x => x = 0
  | .matrix m => ∀ i j, m.entry i j = 0

@[simp] theorem isZero_scalar (x : S) : (Value.scalar x).IsZero ↔ x = 0 := Iff.rfl

@[simp] theorem isZero_ofMatrix {m n : Nat} (M : Matrix (Fin m) (Fin n) S) :
    (ofMatrix M).IsZero ↔ M = 0 := by
  constructor
  · intro h
    ext i j
    simpa using h i j
  · rintro rfl i j
    exact Grid.entry_ofMatrix 0 i j

end Value

end TraceCalculus
