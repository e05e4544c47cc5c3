import TraceCalculus.Proofs.MatrixView

/-! # The algebra of values

The laws of matrix algebra, as laws of the evaluator's operations. Each says that where one side of
an identity has a value, the other side has it too.

A product with a scalar on either side scales the other side (`scalar_mul`, `mul_scalar`), and
scaling commutes with every operation, so what is left of a product is a product of matrices
(`mul_cases`). Sums are those between two values of one type (`Sum`): the evaluator also joins a
scalar with each entry of a matrix, and such sums satisfy few laws.
-/

set_option autoImplicit false

namespace TraceCalculus.Value

open Matrix

variable {S : Type} [ExactScalar S]

/-! ## Scaling -/

@[simp] theorem scaleBy_one (v : Value S) : v.scaleBy 1 = v := by
  obtain ⟨x, rfl⟩ | ⟨m, n, M, rfl⟩ := v.exists_eq <;> simp

theorem scaleBy_scaleBy (x y : S) (v : Value S) : (v.scaleBy y).scaleBy x = v.scaleBy (x * y) := by
  obtain ⟨z, rfl⟩ | ⟨m, n, M, rfl⟩ := v.exists_eq <;> simp [mul_assoc, mul_smul]

theorem isZero_scaleBy_zero (v : Value S) : (v.scaleBy 0).IsZero := by
  obtain ⟨z, rfl⟩ | ⟨m, n, M, rfl⟩ := v.exists_eq <;> simp

theorem IsZero.scaleBy {v : Value S} (h : v.IsZero) (x : S) : (v.scaleBy x).IsZero := by
  obtain ⟨z, rfl⟩ | ⟨m, n, M, rfl⟩ := v.exists_eq <;> simp_all

theorem IsZero.transpose {v : Value S} (h : v.IsZero) : v.transpose.IsZero := by
  obtain ⟨z, rfl⟩ | ⟨m, n, M, rfl⟩ := v.exists_eq <;> simp_all

theorem transpose_scaleBy (x : S) (v : Value S) :
    (v.scaleBy x).transpose = v.transpose.scaleBy x := by
  obtain ⟨z, rfl⟩ | ⟨m, n, M, rfl⟩ := v.exists_eq <;> simp

/-! ## Products -/

theorem scalar_mul (x : S) (v : Value S) : (Value.scalar x).mul v = .ok (v.scaleBy x) := by
  cases v <;> rfl

theorem mul_scalar (v : Value S) (x : S) : v.mul (.scalar x) = .ok (v.scaleBy x) := by
  cases v <;> simp [mul, elementwise, scaleBy, mul_comm]

theorem ofMatrix_mul {m k n : Nat} (M : Matrix (Fin m) (Fin k) S) (N : Matrix (Fin k) (Fin n) S) :
    (ofMatrix M).mul (ofMatrix N) = .ok (ofMatrix (M * N)) := by
  simp [mul, ofMatrix]

theorem inner_eq_of_mul {m k l n : Nat} {M : Matrix (Fin m) (Fin k) S} {N : Matrix (Fin l) (Fin n) S}
    {w : Value S} (h : (ofMatrix M).mul (ofMatrix N) = .ok w) : k = l := by
  by_contra hne
  simp [mul, ofMatrix, Grid.mul?, hne] at h

/-- A product scales one side by the other, or is a product of matrices. -/
theorem mul_cases {u v w : Value S} (h : u.mul v = .ok w) :
    (∃ x, u = .scalar x ∧ w = v.scaleBy x) ∨ (∃ y, v = .scalar y ∧ w = u.scaleBy y) ∨
      ∃ (m k n : Nat) (M : Matrix (Fin m) (Fin k) S) (N : Matrix (Fin k) (Fin n) S),
        u = ofMatrix M ∧ v = ofMatrix N ∧ w = ofMatrix (M * N) := by
  obtain ⟨x, rfl⟩ | ⟨m, k, M, rfl⟩ := u.exists_eq
  · rw [scalar_mul, Except.ok.injEq] at h
    exact .inl ⟨x, rfl, h.symm⟩
  obtain ⟨y, rfl⟩ | ⟨l, n, N, rfl⟩ := v.exists_eq
  · rw [mul_scalar, Except.ok.injEq] at h
    exact .inr (.inl ⟨y, rfl, h.symm⟩)
  · obtain rfl := inner_eq_of_mul h
    rw [ofMatrix_mul, Except.ok.injEq] at h
    exact .inr (.inr ⟨m, k, n, M, N, rfl, rfl, h.symm⟩)

theorem isMatrix_of_mul {u v w : Value S} (h : u.mul v = .ok w) :
    w.isMatrix = (u.isMatrix || v.isMatrix) := by
  obtain ⟨x, rfl, rfl⟩ | ⟨y, rfl, rfl⟩ | ⟨m, k, n, M, N, rfl, rfl, rfl⟩ := mul_cases h <;> simp

/-- A factor leaves a product on the left. -/
theorem scaleBy_mul {u v w : Value S} (x : S) (h : u.mul v = .ok w) :
    (u.scaleBy x).mul v = .ok (w.scaleBy x) := by
  obtain ⟨y, rfl, rfl⟩ | ⟨y, rfl, rfl⟩ | ⟨m, k, n, M, N, rfl, rfl, rfl⟩ := mul_cases h
  · rw [scaleBy_scalar, scalar_mul, scaleBy_scaleBy]
  · rw [mul_scalar, scaleBy_scaleBy, scaleBy_scaleBy, mul_comm]
  · rw [scaleBy_ofMatrix, ofMatrix_mul, scaleBy_ofMatrix, Matrix.smul_mul]

/-- A factor leaves a product on the right. -/
theorem mul_scaleBy {u v w : Value S} (x : S) (h : u.mul v = .ok w) :
    u.mul (v.scaleBy x) = .ok (w.scaleBy x) := by
  obtain ⟨y, rfl, rfl⟩ | ⟨y, rfl, rfl⟩ | ⟨m, k, n, M, N, rfl, rfl, rfl⟩ := mul_cases h
  · rw [scalar_mul, scaleBy_scaleBy, scaleBy_scaleBy, mul_comm]
  · rw [scaleBy_scalar, mul_scalar, scaleBy_scaleBy]
  · rw [scaleBy_ofMatrix, ofMatrix_mul, scaleBy_ofMatrix, Matrix.mul_smul]

theorem mul_of_scaleBy_mul {u v w : Value S} {x : S} (h : (u.scaleBy x).mul v = .ok w) :
    ∃ p, u.mul v = .ok p ∧ w = p.scaleBy x := by
  have key : ∃ p, u.mul v = .ok p := by
    obtain ⟨y, rfl⟩ | ⟨m, k, M, rfl⟩ := u.exists_eq
    · exact ⟨_, scalar_mul y v⟩
    obtain ⟨y, rfl⟩ | ⟨l, n, N, rfl⟩ := v.exists_eq
    · exact ⟨_, mul_scalar _ y⟩
    · rw [scaleBy_ofMatrix] at h
      obtain rfl := inner_eq_of_mul h
      exact ⟨_, ofMatrix_mul M N⟩
  obtain ⟨p, hp⟩ := key
  rw [scaleBy_mul x hp, Except.ok.injEq] at h
  exact ⟨p, hp, h.symm⟩

theorem mul_of_mul_scaleBy {u v w : Value S} {x : S} (h : u.mul (v.scaleBy x) = .ok w) :
    ∃ p, u.mul v = .ok p ∧ w = p.scaleBy x := by
  have key : ∃ p, u.mul v = .ok p := by
    obtain ⟨y, rfl⟩ | ⟨m, k, M, rfl⟩ := u.exists_eq
    · exact ⟨_, scalar_mul y v⟩
    obtain ⟨y, rfl⟩ | ⟨l, n, N, rfl⟩ := v.exists_eq
    · exact ⟨_, mul_scalar _ y⟩
    · rw [scaleBy_ofMatrix] at h
      obtain rfl := inner_eq_of_mul h
      exact ⟨_, ofMatrix_mul M N⟩
  obtain ⟨p, hp⟩ := key
  rw [mul_scaleBy x hp, Except.ok.injEq] at h
  exact ⟨p, hp, h.symm⟩

theorem mul_isZero_left {u v w : Value S} (h : u.mul v = .ok w) (hu : u.IsZero) : w.IsZero := by
  obtain ⟨y, rfl, rfl⟩ | ⟨y, rfl, rfl⟩ | ⟨m, k, n, M, N, rfl, rfl, rfl⟩ := mul_cases h
  · obtain rfl : y = 0 := hu
    exact isZero_scaleBy_zero v
  · exact hu.scaleBy y
  · simp_all

theorem mul_isZero_right {u v w : Value S} (h : u.mul v = .ok w) (hv : v.IsZero) : w.IsZero := by
  obtain ⟨y, rfl, rfl⟩ | ⟨y, rfl, rfl⟩ | ⟨m, k, n, M, N, rfl, rfl, rfl⟩ := mul_cases h
  · exact hv.scaleBy y
  · obtain rfl : y = 0 := hv
    exact isZero_scaleBy_zero u
  · simp_all

/-- Products associate to the left. -/
theorem mul_assoc_left {u v w p z : Value S} (h₁ : v.mul w = .ok p) (h₂ : u.mul p = .ok z) :
    ∃ q, u.mul v = .ok q ∧ q.mul w = .ok z := by
  obtain ⟨y, rfl, rfl⟩ | ⟨y, rfl, rfl⟩ | ⟨m, k, n, M, N, rfl, rfl, rfl⟩ := mul_cases h₁
  · obtain ⟨q, hq, rfl⟩ := mul_of_mul_scaleBy h₂
    exact ⟨_, mul_scalar u y, scaleBy_mul y hq⟩
  · obtain ⟨q, hq, rfl⟩ := mul_of_mul_scaleBy h₂
    exact ⟨q, hq, mul_scalar q y⟩
  · obtain ⟨x, rfl⟩ | ⟨l, m', L, rfl⟩ := u.exists_eq
    · rw [scalar_mul, Except.ok.injEq] at h₂
      subst h₂
      exact ⟨_, scalar_mul x _, scaleBy_mul x h₁⟩
    · obtain rfl := inner_eq_of_mul h₂
      rw [ofMatrix_mul, Except.ok.injEq] at h₂
      subst h₂
      exact ⟨_, ofMatrix_mul L M, by rw [ofMatrix_mul, Matrix.mul_assoc]⟩

theorem transpose_mul {u v w : Value S} (h : u.mul v = .ok w) :
    v.transpose.mul u.transpose = .ok w.transpose := by
  obtain ⟨y, rfl, rfl⟩ | ⟨y, rfl, rfl⟩ | ⟨m, k, n, M, N, rfl, rfl, rfl⟩ := mul_cases h
  · rw [transpose_scalar, mul_scalar, transpose_scaleBy]
  · rw [transpose_scalar, scalar_mul, transpose_scaleBy]
  · simp only [transpose_ofMatrix, ofMatrix_mul, Matrix.transpose_mul]

/-! ## Sums -/

/-- `w` is the sum of `u` and `v`, which have one type. -/
inductive Sum : Value S → Value S → Value S → Prop
  | scalar (x y : S) : Sum (.scalar x) (.scalar y) (.scalar (x + y))
  | matrix {m n : Nat} (M N : Matrix (Fin m) (Fin n) S) :
      Sum (ofMatrix M) (ofMatrix N) (ofMatrix (M + N))

/-- `w` is the difference of `u` and `v`, which have one type. -/
def Difference (u v w : Value S) : Prop := Sum u (v.scaleBy (-1)) w

theorem ofMatrix_add {m n : Nat} (M N : Matrix (Fin m) (Fin n) S) :
    (ofMatrix M).add (ofMatrix N) = .ok (ofMatrix (M + N)) := by
  simp only [add, elementwise, ofMatrix, Grid.zipWith?_ofMatrix]
  rfl

theorem ofMatrix_sub {m n : Nat} (M N : Matrix (Fin m) (Fin n) S) :
    (ofMatrix M).sub (ofMatrix N) = .ok (ofMatrix (M - N)) := by
  simp only [sub, elementwise, ofMatrix, Grid.zipWith?_ofMatrix]
  rfl

theorem Sum.add_eq {u v w : Value S} (h : Sum u v w) : u.add v = .ok w := by
  obtain ⟨x, y⟩ | ⟨M, N⟩ := h
  · rfl
  · exact ofMatrix_add M N

theorem Sum.isMatrix_eq {u v w : Value S} (h : Sum u v w) :
    u.isMatrix = w.isMatrix ∧ v.isMatrix = w.isMatrix := by
  obtain ⟨x, y⟩ | ⟨M, N⟩ := h <;> simp

omit [ExactScalar S] in
theorem sum_of_elementwise {u v w : Value S} {op : Operator} {f : S → S → S}
    (h : u.elementwise op f v = .ok w) (hk : u.isMatrix = v.isMatrix) :
    (∃ x y, u = .scalar x ∧ v = .scalar y) ∨
      ∃ (m n : Nat) (M N : Matrix (Fin m) (Fin n) S), u = ofMatrix M ∧ v = ofMatrix N := by
  obtain ⟨x, rfl⟩ | ⟨m, n, M, rfl⟩ := u.exists_eq <;>
    obtain ⟨y, rfl⟩ | ⟨p, q, N, rfl⟩ := v.exists_eq
  · exact .inl ⟨x, y, rfl, rfl⟩
  · simp at hk
  · simp at hk
  · have hd : m = p ∧ n = q := by
      by_contra hne
      simp [elementwise, ofMatrix, Grid.zipWith?, hne] at h
    obtain ⟨rfl, rfl⟩ := hd
    exact .inr ⟨m, n, M, N, rfl, rfl⟩

theorem sum_iff {u v w : Value S} : Sum u v w ↔ u.isMatrix = v.isMatrix ∧ u.add v = .ok w := by
  refine ⟨fun h => ⟨h.isMatrix_eq.1.trans h.isMatrix_eq.2.symm, h.add_eq⟩, fun ⟨hk, h⟩ => ?_⟩
  obtain ⟨x, y, rfl, rfl⟩ | ⟨m, n, M, N, rfl, rfl⟩ := sum_of_elementwise h hk
  · cases h
    exact .scalar x y
  · rw [ofMatrix_add, Except.ok.injEq] at h
    subst h
    exact .matrix M N

theorem sub_eq_ok {u v w : Value S} : u.sub v = .ok w ↔ u.add (v.scaleBy (-1)) = .ok w := by
  obtain ⟨x, rfl⟩ | ⟨m, n, M, rfl⟩ := u.exists_eq <;>
    obtain ⟨y, rfl⟩ | ⟨p, q, N, rfl⟩ := v.exists_eq
  · simp [sub, add, elementwise, sub_eq_add_neg]
  · simp [sub, add, elementwise, ofMatrix, scaleBy, sub_eq_add_neg, Function.comp_def]
  · simp [sub, add, elementwise, ofMatrix, sub_eq_add_neg]
  by_cases hd : m = p ∧ n = q
  · obtain ⟨rfl, rfl⟩ := hd
    rw [scaleBy_ofMatrix, ofMatrix_add, ofMatrix_sub, neg_one_smul, sub_eq_add_neg]
  · rw [scaleBy_ofMatrix]
    simp [sub, add, elementwise, ofMatrix, Grid.zipWith?, hd]

theorem difference_iff {u v w : Value S} :
    Difference u v w ↔ u.isMatrix = v.isMatrix ∧ u.sub v = .ok w := by
  rw [Difference, sum_iff, isMatrix_scaleBy, sub_eq_ok]

theorem Difference.sub_eq {u v w : Value S} (h : Difference u v w) : u.sub v = .ok w :=
  (difference_iff.1 h).2

/-- Two facts about one sum have the same result. -/
theorem Sum.unique {u v w w' : Value S} (h : Sum u v w) (h' : Sum u v w') : w = w' := by
  have := h.add_eq
  rw [h'.add_eq, Except.ok.injEq] at this
  exact this.symm

theorem Sum.comm {u v w : Value S} (h : Sum u v w) : Sum v u w := by
  obtain ⟨x, y⟩ | ⟨M, N⟩ := h
  · rw [add_comm]
    exact .scalar y x
  · rw [add_comm]
    exact .matrix N M

/-- Sums associate to the left. -/
theorem Sum.assoc_left {u v w p z : Value S} (h₁ : Sum v w p) (h₂ : Sum u p z) :
    ∃ q, Sum u v q ∧ Sum q w z := by
  obtain ⟨x, y⟩ | ⟨M, N⟩ := h₁
  · generalize hp : Value.scalar (x + y) = p at h₂
    obtain ⟨a, b⟩ | ⟨L, K⟩ := h₂
    · obtain rfl := Value.scalar.inj hp
      rw [← add_assoc]
      exact ⟨_, .scalar a x, .scalar _ y⟩
    · exact absurd hp (scalar_ne_ofMatrix _ _)
  · generalize hp : ofMatrix (M + N) = p at h₂
    obtain ⟨a, b⟩ | ⟨L, K⟩ := h₂
    · exact absurd hp (ofMatrix_ne_scalar _ _)
    · obtain ⟨rfl, rfl⟩ := ofMatrix_eq hp
      obtain rfl := ofMatrix_inj.1 hp
      rw [← add_assoc]
      exact ⟨_, .matrix L M, .matrix _ N⟩
theorem Sum.scaleBy {u v w : Value S} (h : Sum u v w) (x : S) :
    Sum (u.scaleBy x) (v.scaleBy x) (w.scaleBy x) := by
  obtain ⟨y, z⟩ | ⟨M, N⟩ := h
  · rw [scaleBy_scalar, scaleBy_scalar, scaleBy_scalar, mul_add]
    exact .scalar _ _
  · rw [scaleBy_ofMatrix, scaleBy_ofMatrix, scaleBy_ofMatrix, smul_add]
    exact .matrix _ _

theorem Sum.transpose {u v w : Value S} (h : Sum u v w) :
    Sum u.transpose v.transpose w.transpose := by
  obtain ⟨y, z⟩ | ⟨M, N⟩ := h
  · exact .scalar y z
  · rw [transpose_ofMatrix, transpose_ofMatrix, transpose_ofMatrix, Matrix.transpose_add]
    exact .matrix _ _

theorem Sum.eq_of_isZero_left {u v w : Value S} (h : Sum u v w) (hu : u.IsZero) : w = v := by
  obtain ⟨y, z⟩ | ⟨M, N⟩ := h
  · obtain rfl : y = 0 := hu
    rw [zero_add]
  · rw [isZero_ofMatrix] at hu
    rw [hu, zero_add]

theorem Sum.eq_of_isZero_right {u v w : Value S} (h : Sum u v w) (hv : v.IsZero) : w = u := by
  obtain ⟨y, z⟩ | ⟨M, N⟩ := h
  · obtain rfl : z = 0 := hv
    rw [add_zero]
  · rw [isZero_ofMatrix] at hv
    rw [hv, add_zero]

/-- A term added to itself is doubled. -/
theorem Sum.eq_scaleBy_two {u w : Value S} (h : Sum u u w) : w = u.scaleBy (1 + 1) := by
  obtain ⟨x, rfl⟩ | ⟨m, n, M, rfl⟩ := u.exists_eq
  · rw [h.unique (.scalar x x), scaleBy_scalar, add_mul, one_mul]
  · rw [h.unique (.matrix M M), scaleBy_ofMatrix, add_smul, one_smul]

/-- A term cancels with itself. -/
theorem Difference.isZero {u w : Value S} (h : Difference u u w) : w.IsZero := by
  unfold Difference at h
  obtain ⟨x, rfl⟩ | ⟨m, n, M, rfl⟩ := u.exists_eq
  · rw [h.unique (.scalar x _)]
    simp
  · rw [scaleBy_ofMatrix] at h
    rw [h.unique (.matrix M _)]
    simp

theorem Difference.eq_of_isZero_left {u v w : Value S} (h : Difference u v w) (hu : u.IsZero) :
    w = v.scaleBy (-1) :=
  Sum.eq_of_isZero_left h hu

theorem Difference.eq_of_isZero_right {u v w : Value S} (h : Difference u v w) (hv : v.IsZero) :
    w = u :=
  Sum.eq_of_isZero_right h (hv.scaleBy (-1))

theorem Sum.exists_scaled {u v w : Value S} (h : Sum u v w) (x : S) :
    ∃ z, Sum u (v.scaleBy x) z := by
  obtain ⟨y, z⟩ | ⟨M, N⟩ := h
  · exact ⟨_, .scalar y _⟩
  · rw [scaleBy_ofMatrix]
    exact ⟨_, .matrix M _⟩

/-- A product on the right distributes over a sum. -/
theorem Sum.mul_right {u v p w z : Value S} (h : Sum u v p) (hm : p.mul w = .ok z) :
    ∃ q r, u.mul w = .ok q ∧ v.mul w = .ok r ∧ Sum q r z := by
  obtain ⟨x, rfl⟩ | ⟨k, l, W, rfl⟩ := w.exists_eq
  · rw [mul_scalar, Except.ok.injEq] at hm
    subst hm
    exact ⟨_, _, mul_scalar u x, mul_scalar v x, h.scaleBy x⟩
  obtain ⟨x, y⟩ | ⟨M, N⟩ := h
  · rw [scalar_mul, Except.ok.injEq] at hm
    subst hm
    refine ⟨_, _, scalar_mul x _, scalar_mul y _, ?_⟩
    rw [scaleBy_ofMatrix, scaleBy_ofMatrix, scaleBy_ofMatrix, add_smul]
    exact .matrix _ _
  · obtain rfl := inner_eq_of_mul hm
    rw [ofMatrix_mul, Except.ok.injEq] at hm
    subst hm
    refine ⟨_, _, ofMatrix_mul M W, ofMatrix_mul N W, ?_⟩
    rw [Matrix.add_mul]
    exact .matrix _ _

/-- A product on the left distributes over a sum. -/
theorem Sum.mul_left {u v p w z : Value S} (h : Sum u v p) (hm : w.mul p = .ok z) :
    ∃ q r, w.mul u = .ok q ∧ w.mul v = .ok r ∧ Sum q r z := by
  obtain ⟨q, r, hq, hr, hs⟩ := h.transpose.mul_right (transpose_mul hm)
  have hz := hs.transpose
  rw [transpose_transpose] at hz
  refine ⟨_, _, ?_, ?_, hz⟩
  · simpa using transpose_mul hq
  · simpa using transpose_mul hr

theorem Difference.isMatrix_eq {u v w : Value S} (h : Difference u v w) :
    u.isMatrix = w.isMatrix ∧ v.isMatrix = w.isMatrix := by
  have hk := Sum.isMatrix_eq h
  rwa [isMatrix_scaleBy] at hk

theorem Difference.transpose {u v w : Value S} (h : Difference u v w) :
    Difference u.transpose v.transpose w.transpose := by
  unfold Difference
  rw [← transpose_scaleBy]
  exact Sum.transpose h

theorem Difference.mul_right {u v p w z : Value S} (h : Difference u v p) (hm : p.mul w = .ok z) :
    ∃ q r, u.mul w = .ok q ∧ v.mul w = .ok r ∧ Difference q r z := by
  obtain ⟨q, r', hq, hr', hs⟩ := Sum.mul_right h hm
  obtain ⟨r, hr, rfl⟩ := mul_of_scaleBy_mul hr'
  exact ⟨q, r, hq, hr, hs⟩

theorem Difference.mul_left {u v p w z : Value S} (h : Difference u v p) (hm : w.mul p = .ok z) :
    ∃ q r, w.mul u = .ok q ∧ w.mul v = .ok r ∧ Difference q r z := by
  obtain ⟨q, r', hq, hr', hs⟩ := Sum.mul_left h hm
  obtain ⟨r, hr, rfl⟩ := mul_of_mul_scaleBy hr'
  exact ⟨q, r, hq, hr, hs⟩

/-! ## Traces -/

theorem trace_scalar (x : S) : (Value.scalar x).trace = .ok (.scalar x) := rfl

theorem trace_ofMatrix {n : Nat} (M : Matrix (Fin n) (Fin n) S) :
    (ofMatrix M).trace = .ok (.scalar M.trace) := by
  simp [trace, ofMatrix]

theorem trace_cases {v t : Value S} (h : v.trace = .ok t) :
    (∃ x, v = .scalar x ∧ t = .scalar x) ∨
      ∃ (n : Nat) (M : Matrix (Fin n) (Fin n) S), v = ofMatrix M ∧ t = .scalar M.trace := by
  obtain ⟨x, rfl⟩ | ⟨m, n, M, rfl⟩ := v.exists_eq
  · cases h
    exact .inl ⟨x, rfl, rfl⟩
  · have hd : m = n := by
      by_contra hne
      simp [trace, ofMatrix, Grid.trace?, hne] at h
    subst hd
    rw [trace_ofMatrix, Except.ok.injEq] at h
    exact .inr ⟨m, M, rfl, h.symm⟩

theorem isMatrix_of_trace {v t : Value S} (h : v.trace = .ok t) : t.isMatrix = false := by
  obtain ⟨x, rfl, rfl⟩ | ⟨n, M, rfl, rfl⟩ := trace_cases h <;> rfl

theorem trace_isZero {v t : Value S} (h : v.trace = .ok t) (hv : v.IsZero) : t.IsZero := by
  obtain ⟨x, rfl, rfl⟩ | ⟨n, M, rfl, rfl⟩ := trace_cases h
  · exact hv
  · rw [isZero_ofMatrix] at hv
    simp [hv]

theorem trace_of_scaleBy {v t : Value S} {x : S} (h : (v.scaleBy x).trace = .ok t) :
    ∃ s, v.trace = .ok s ∧ t = s.scaleBy x := by
  obtain ⟨y, rfl⟩ | ⟨m, n, M, rfl⟩ := v.exists_eq
  · cases h
    exact ⟨_, rfl, rfl⟩
  · rw [scaleBy_ofMatrix] at h
    obtain ⟨_, hv, -⟩ | ⟨k, N, hv, -⟩ := trace_cases h
    · simp at hv
    · obtain ⟨rfl, rfl⟩ := ofMatrix_eq hv
      rw [trace_ofMatrix, Except.ok.injEq] at h
      subst h
      exact ⟨_, trace_ofMatrix M, by rw [Matrix.trace_smul, scaleBy_scalar, smul_eq_mul]⟩

theorem trace_scaleBy {v t : Value S} (x : S) (h : v.trace = .ok t) :
    (v.scaleBy x).trace = .ok (t.scaleBy x) := by
  obtain ⟨y, rfl, rfl⟩ | ⟨n, M, rfl, rfl⟩ := trace_cases h
  · rfl
  · rw [scaleBy_ofMatrix, trace_ofMatrix, Matrix.trace_smul, scaleBy_scalar, smul_eq_mul]

theorem trace_transpose {v t : Value S} (h : v.trace = .ok t) : v.transpose.trace = .ok t := by
  obtain ⟨y, rfl, rfl⟩ | ⟨n, M, rfl, rfl⟩ := trace_cases h
  · rfl
  · rw [transpose_ofMatrix, trace_ofMatrix, Matrix.trace_transpose]

/-- The trace of a sum is the sum of the traces. -/
theorem Sum.trace {u v p t : Value S} (h : Sum u v p) (ht : p.trace = .ok t) :
    ∃ a b, u.trace = .ok a ∧ v.trace = .ok b ∧ Sum a b t := by
  obtain ⟨x, y⟩ | @⟨m, n, M, N⟩ := h
  · cases ht
    exact ⟨_, _, rfl, rfl, .scalar x y⟩
  · obtain ⟨_, hv, -⟩ | ⟨k, N, hv, -⟩ := trace_cases ht
    · simp at hv
    · obtain ⟨rfl, rfl⟩ := ofMatrix_eq hv
      rw [trace_ofMatrix, Except.ok.injEq, Matrix.trace_add] at ht
      subst ht
      exact ⟨_, _, trace_ofMatrix M, trace_ofMatrix _, .scalar _ _⟩

theorem Difference.trace {u v p t : Value S} (h : Difference u v p) (ht : p.trace = .ok t) :
    ∃ a b, u.trace = .ok a ∧ v.trace = .ok b ∧ Difference a b t := by
  obtain ⟨a, b', ha, hb', hs⟩ := Sum.trace h ht
  obtain ⟨b, hb, rfl⟩ := trace_of_scaleBy hb'
  exact ⟨a, b, ha, hb, hs⟩

/-- A product in a trace may be rotated. -/
theorem trace_mul_comm {u v p t : Value S} (h : u.mul v = .ok p) (ht : p.trace = .ok t) :
    ∃ q, v.mul u = .ok q ∧ q.trace = .ok t := by
  obtain ⟨y, rfl, rfl⟩ | ⟨y, rfl, rfl⟩ | ⟨m, k, n, M, N, rfl, rfl, rfl⟩ := mul_cases h
  · exact ⟨_, mul_scalar v y, ht⟩
  · exact ⟨_, scalar_mul y u, ht⟩
  · obtain ⟨_, hv, -⟩ | ⟨l, L, hv, -⟩ := trace_cases ht
    · simp at hv
    · obtain ⟨rfl, rfl⟩ := ofMatrix_eq hv
      rw [trace_ofMatrix, Matrix.trace_mul_comm] at ht
      exact ⟨_, ofMatrix_mul N M, by rw [trace_ofMatrix, ht]⟩

/-- In a trace the transpose moves from one factor to the other. -/
theorem trace_mul_transpose {u v p t : Value S} (h : u.mul v.transpose = .ok p)
    (ht : p.trace = .ok t) : ∃ q, u.transpose.mul v = .ok q ∧ q.trace = .ok t := by
  have h' := transpose_mul h
  rw [transpose_transpose] at h'
  exact trace_mul_comm h' (trace_transpose ht)

theorem Sum.trace_eq {u v p s t r : Value S} (h : Sum u v p) (hs : u.trace = .ok s)
    (ht : v.trace = .ok t) (hr : Sum s t r) : p.trace = .ok r := by
  obtain ⟨x, y⟩ | @⟨m, n, M, N⟩ := h
  · cases hs
    cases ht
    rw [hr.unique (.scalar x y), trace_scalar]
  · obtain ⟨_, hv, -⟩ | ⟨k, L, hv, -⟩ := trace_cases hs
    · simp at hv
    · obtain ⟨rfl, rfl⟩ := ofMatrix_eq hv
      rw [trace_ofMatrix, Except.ok.injEq] at hs ht
      subst hs ht
      rw [hr.unique (.scalar _ _), trace_ofMatrix, Matrix.trace_add]

/-- Two traces of products with one right factor are the trace of one product. -/
theorem Sum.trace_mul {u v z w p q s t r : Value S} (h : Sum u v z) (hp : u.mul w = .ok p)
    (hs : p.trace = .ok s) (hq : v.mul w = .ok q) (ht : q.trace = .ok t) (hr : Sum s t r) :
    ∃ y, z.mul w = .ok y ∧ y.trace = .ok r := by
  have hm : ∃ y, z.mul w = .ok y ∧ Sum p q y := by
    obtain ⟨x, rfl⟩ | ⟨k, l, W, rfl⟩ := w.exists_eq
    · rw [mul_scalar, Except.ok.injEq] at hp hq
      subst hp hq
      exact ⟨_, mul_scalar z x, h.scaleBy x⟩
    obtain ⟨x, y⟩ | ⟨M, N⟩ := h
    · rw [scalar_mul, Except.ok.injEq] at hp hq
      subst hp hq
      refine ⟨_, scalar_mul _ _, ?_⟩
      rw [scaleBy_ofMatrix, scaleBy_ofMatrix, scaleBy_ofMatrix, add_smul]
      exact .matrix _ _
    · obtain rfl := inner_eq_of_mul hp
      rw [ofMatrix_mul, Except.ok.injEq] at hp hq
      subst hp hq
      refine ⟨_, ofMatrix_mul _ W, ?_⟩
      rw [Matrix.add_mul]
      exact .matrix _ _
  obtain ⟨y, hy, hpq⟩ := hm
  exact ⟨y, hy, hpq.trace_eq hs ht hr⟩

/-- Two matrices that give square products with one matrix have one shape. -/
theorem exists_sum_of_trace_mul {u v w p q s t : Value S} (hu : u.isMatrix = true)
    (hv : v.isMatrix = true) (hw : w.isMatrix = true) (hp : u.mul w = .ok p) (hs : p.trace = .ok s)
    (hq : v.mul w = .ok q) (ht : q.trace = .ok t) : ∃ z, Sum u v z := by
  obtain ⟨x, rfl⟩ | ⟨m, k, M, rfl⟩ := u.exists_eq
  · simp at hu
  obtain ⟨x, rfl⟩ | ⟨l, k', N, rfl⟩ := v.exists_eq
  · simp at hv
  obtain ⟨x, rfl⟩ | ⟨k'', n, W, rfl⟩ := w.exists_eq
  · simp at hw
  obtain rfl := inner_eq_of_mul hp
  obtain rfl := inner_eq_of_mul hq
  rw [ofMatrix_mul, Except.ok.injEq] at hp hq
  subst hp hq
  -- both products are square, and as wide as the right factor
  obtain ⟨_, h, -⟩ | ⟨a, L, h, -⟩ := trace_cases hs
  · simp at h
  obtain ⟨rfl, rfl⟩ := ofMatrix_eq h
  obtain ⟨_, h', -⟩ | ⟨b, L', h', -⟩ := trace_cases ht
  · simp at h'
  obtain ⟨rfl, rfl⟩ := ofMatrix_eq h'
  exact ⟨_, .matrix M N⟩

end TraceCalculus.Value
