import Mathlib.Algebra.DualNumber
import TraceCalculus.Proofs.Typing

/-! # Values over the dual numbers

The dual numbers over exact scalars are exact scalars again, so expressions can be evaluated over
them as they are. A value over the dual numbers has two parts, `Value.re` and `Value.eps`: a point
and a direction in which it moves. Every operation on values acts on the first parts as it does on
values, and on the second parts as its differential does. Where the operation has a value for the
points, it has one for the whole.
-/

set_option autoImplicit false

namespace TraceCalculus

open Matrix TrivSqZeroExt

variable {S : Type} [ExactScalar S]

/-- The dual numbers. A numeral has no second part. -/
instance : ExactScalar (DualNumber S) :=
  { (inferInstance : CommRing (DualNumber S)) with
    beq := fun x y => x.fst == y.fst && x.snd == y.snd
    ofNumeral := fun n => inl (Scalar.ofNumeral n)
    text := fun x => Scalar.text x.fst ++ " + " ++ Scalar.text x.snd ++ "*eps"
    entryText := fun x => Scalar.entryText x.fst ++ " + " ++ Scalar.entryText x.snd ++ "*eps"
    key := fun x => mixHash (Scalar.key x.fst) (Scalar.key x.snd)
    beq_iff := fun x y => by
      rw [Bool.and_eq_true, ExactScalar.beq_iff, ExactScalar.beq_iff, TrivSqZeroExt.ext_iff]
    alike_eq := fun _ _ => rfl
    anew_eq := fun _ => rfl
    placed_eq := fun _ _ => rfl }

namespace Value

section Parts

omit [ExactScalar S]

variable {T : Type} {m n : Nat}

/-- Every entry taken to another type of scalars. -/
def mapEntries (f : S → T) : Value S → Value T
  | .scalar x => .scalar (f x)
  | .matrix m => .matrix (.ofFn m.rows m.cols fun i j => f (m.entry i j))

theorem mapEntries_ofMatrix (f : S → T) (M : Matrix (Fin m) (Fin n) S) :
    (ofMatrix M).mapEntries f = ofMatrix (M.map f) :=
  congrArg (fun g => Value.matrix (Grid.ofFn m n g))
    (funext₂ fun i j => congrArg f (Grid.entry_ofMatrix M i j))

/-- The point. -/
def re (V : Value (DualNumber S)) : Value S := V.mapEntries fst

/-- The direction in which the point moves. -/
def eps (V : Value (DualNumber S)) : Value S := V.mapEntries snd

@[simp] theorem re_scalar (x : DualNumber S) : (Value.scalar x).re = .scalar x.fst := rfl

@[simp] theorem eps_scalar (x : DualNumber S) : (Value.scalar x).eps = .scalar x.snd := rfl

@[simp] theorem re_ofMatrix (M : Matrix (Fin m) (Fin n) (DualNumber S)) :
    (ofMatrix M).re = ofMatrix (M.map fst) :=
  mapEntries_ofMatrix fst M

@[simp] theorem eps_ofMatrix (M : Matrix (Fin m) (Fin n) (DualNumber S)) :
    (ofMatrix M).eps = ofMatrix (M.map snd) :=
  mapEntries_ofMatrix snd M

theorem isMatrix_re (V : Value (DualNumber S)) : V.re.isMatrix = V.isMatrix := by
  cases V <;> rfl

theorem isMatrix_eps (V : Value (DualNumber S)) : V.eps.isMatrix = V.isMatrix := by
  cases V <;> rfl

end Parts

/-- A point that does not move. -/
def still (v : Value S) : Value (DualNumber S) := v.mapEntries inl

@[simp] theorem still_scalar (x : S) : (Value.scalar x).still = .scalar (inl x) := rfl

@[simp] theorem still_ofMatrix {m n : Nat} (M : Matrix (Fin m) (Fin n) S) :
    (ofMatrix M).still = ofMatrix (M.map inl) :=
  mapEntries_ofMatrix inl M

@[simp] theorem re_still (v : Value S) : v.still.re = v := by
  obtain ⟨x, rfl⟩ | ⟨m, n, M, rfl⟩ := v.exists_eq
  · rfl
  · rw [still_ofMatrix, re_ofMatrix, ofMatrix_inj]
    rfl

theorem isZero_eps_still (v : Value S) : v.still.eps.IsZero := by
  obtain ⟨x, rfl⟩ | ⟨m, n, M, rfl⟩ := v.exists_eq
  · rfl
  · rw [still_ofMatrix, eps_ofMatrix, isZero_ofMatrix]
    rfl

theorem IsZero.eps {V : Value (DualNumber S)} (h : V.IsZero) : V.eps.IsZero := by
  obtain ⟨x, rfl⟩ | ⟨m, n, M, rfl⟩ := V.exists_eq
  · rw [isZero_scalar] at h
    rw [h]
    rfl
  · rw [isZero_ofMatrix] at h
    rw [h, eps_ofMatrix, isZero_ofMatrix]
    rfl

/-- Every direction of the type of a point is one it can move in. -/
theorem exists_re_eps {p h : Value S} (ht : p.type = h.type) :
    ∃ V : Value (DualNumber S), V.re = p ∧ V.eps = h := by
  obtain ⟨x, rfl⟩ | ⟨m, n, M, rfl⟩ := p.exists_eq
  · obtain ⟨y, rfl⟩ := eq_scalar_of_type ht.symm
    exact ⟨.scalar (inl x + inr y), by simp, by simp⟩
  · obtain ⟨N, rfl⟩ := eq_ofMatrix_of_type (ht.symm.trans (type_ofMatrix M))
    refine ⟨ofMatrix (.of fun i j => inl (M i j) + inr (N i j)), ?_, ?_⟩
    · rw [re_ofMatrix, ofMatrix_inj]
      ext i j
      simp
    · rw [eps_ofMatrix, ofMatrix_inj]
      ext i j
      simp

/-! ## The operations on the parts -/

omit [ExactScalar S] in
theorem re_transpose (V : Value (DualNumber S)) : V.transpose.re = V.re.transpose := by
  obtain ⟨x, rfl⟩ | ⟨m, n, M, rfl⟩ := V.exists_eq
  · rfl
  · rw [transpose_ofMatrix, re_ofMatrix, re_ofMatrix, transpose_ofMatrix, Matrix.transpose_map]

omit [ExactScalar S] in
theorem eps_transpose (V : Value (DualNumber S)) : V.transpose.eps = V.eps.transpose := by
  obtain ⟨x, rfl⟩ | ⟨m, n, M, rfl⟩ := V.exists_eq
  · rfl
  · rw [transpose_ofMatrix, eps_ofMatrix, eps_ofMatrix, transpose_ofMatrix, Matrix.transpose_map]

theorem re_scaleBy (x : DualNumber S) (V : Value (DualNumber S)) :
    (V.scaleBy x).re = V.re.scaleBy x.fst := by
  obtain ⟨y, rfl⟩ | ⟨m, n, M, rfl⟩ := V.exists_eq
  · simp
  · rw [scaleBy_ofMatrix, re_ofMatrix, re_ofMatrix, scaleBy_ofMatrix, ofMatrix_inj]
    ext i j
    simp

theorem sum_eps_scaleBy (x : DualNumber S) (V : Value (DualNumber S)) :
    Sum (V.re.scaleBy x.snd) (V.eps.scaleBy x.fst) (V.scaleBy x).eps := by
  obtain ⟨y, rfl⟩ | ⟨m, n, M, rfl⟩ := V.exists_eq
  · have h : (x * y).snd = x.snd * y.fst + x.fst * y.snd := by
      simp [add_comm, mul_comm]
    rw [scaleBy_scalar, eps_scalar, eps_scalar, h]
    exact .scalar _ _
  · have h : (x • M).map snd = x.snd • M.map fst + x.fst • M.map snd := by
      ext i j
      simp [add_comm, mul_comm]
    rw [scaleBy_ofMatrix, eps_ofMatrix, eps_ofMatrix, h, re_ofMatrix, scaleBy_ofMatrix,
      scaleBy_ofMatrix]
    exact .matrix _ _

theorem eps_scaleBy_inl (x : S) (V : Value (DualNumber S)) :
    (V.scaleBy (inl x)).eps = V.eps.scaleBy x := by
  have h := sum_eps_scaleBy (inl x) V
  rw [snd_inl, fst_inl] at h
  exact h.eq_of_isZero_left (isZero_scaleBy_zero V.re)

theorem still_scaleBy (x : S) (v : Value S) : (v.scaleBy x).still = v.still.scaleBy (inl x) := by
  obtain ⟨y, rfl⟩ | ⟨m, n, M, rfl⟩ := v.exists_eq
  · simp
  · rw [scaleBy_ofMatrix, still_ofMatrix, still_ofMatrix, scaleBy_ofMatrix, ofMatrix_inj]
    ext i j
    · simp
    · simp

theorem Sum.lift {U V : Value (DualNumber S)} {w : Value S} (h : Sum U.re V.re w) :
    ∃ W, Sum U V W ∧ W.re = w ∧ Sum U.eps V.eps W.eps := by
  obtain ⟨x, rfl⟩ | ⟨m, n, M, rfl⟩ := U.exists_eq <;>
    obtain ⟨y, rfl⟩ | ⟨k, l, N, rfl⟩ := V.exists_eq
  · refine ⟨_, .scalar x y, ?_, ?_⟩
    · rw [re_scalar, fst_add]
      exact Sum.unique (.scalar _ _) h
    · exact .scalar x.snd y.snd
  · have hk := h.isMatrix_eq
    simp [← hk.1] at hk
  · have hk := h.isMatrix_eq
    simp [← hk.1] at hk
  · rw [re_ofMatrix, re_ofMatrix] at h
    have ht := h.type_eq.1.trans h.type_eq.2.symm
    simp only [type_ofMatrix, ValueType.matrix.injEq, Shape.mk.injEq] at ht
    obtain ⟨rfl, rfl⟩ := ht
    refine ⟨_, .matrix M N, ?_, ?_⟩
    · rw [h.unique (.matrix _ _), re_ofMatrix, ofMatrix_inj]
      exact Matrix.map_add _ fst_add M N
    · rw [eps_ofMatrix, eps_ofMatrix, eps_ofMatrix, Matrix.map_add _ snd_add M N]
      exact .matrix _ _

theorem Difference.lift {U V : Value (DualNumber S)} {w : Value S} (h : Difference U.re V.re w) :
    ∃ W, Difference U V W ∧ W.re = w ∧ Difference U.eps V.eps W.eps := by
  have hneg : (-1 : DualNumber S) = inl (-1) := by simp
  have hre : (V.scaleBy (-1)).re = V.re.scaleBy (-1) := by
    rw [re_scaleBy, hneg, fst_inl]
  have heps : (V.scaleBy (-1)).eps = V.eps.scaleBy (-1) := by
    rw [hneg, eps_scaleBy_inl]
  unfold Difference at h ⊢
  rw [← hre] at h
  rw [← heps]
  exact Sum.lift h

theorem trace_lift {V : Value (DualNumber S)} {t : Value S} (h : V.re.trace = .ok t) :
    ∃ T, V.trace = .ok T ∧ T.re = t ∧ V.eps.trace = .ok T.eps := by
  obtain ⟨x, rfl⟩ | ⟨m, n, M, rfl⟩ := V.exists_eq
  · cases h
    exact ⟨_, rfl, rfl, rfl⟩
  · rw [re_ofMatrix] at h
    obtain ⟨_, hv, -⟩ | ⟨k, N, hv, -⟩ := trace_cases h
    · simp at hv
    · obtain ⟨rfl, rfl⟩ := ofMatrix_eq hv
      rw [trace_ofMatrix, Except.ok.injEq] at h
      subst h
      refine ⟨_, trace_ofMatrix M, ?_, ?_⟩
      · simp [Matrix.trace, fst_sum]
      · rw [eps_ofMatrix, trace_ofMatrix]
        simp [Matrix.trace, snd_sum]

/-- The product rule. -/
theorem mul_lift {U V : Value (DualNumber S)} {w : Value S} (h : U.re.mul V.re = .ok w) :
    ∃ W p q, U.mul V = .ok W ∧ W.re = w ∧ U.eps.mul V.re = .ok p ∧ U.re.mul V.eps = .ok q ∧
      Sum p q W.eps := by
  obtain ⟨x, rfl⟩ | ⟨m, k, M, rfl⟩ := U.exists_eq
  · rw [re_scalar, scalar_mul, Except.ok.injEq] at h
    refine ⟨_, _, _, scalar_mul x V, (re_scaleBy x V).trans h, scalar_mul _ _, scalar_mul _ _, ?_⟩
    exact sum_eps_scaleBy x V
  obtain ⟨y, rfl⟩ | ⟨l, n, N, rfl⟩ := V.exists_eq
  · rw [re_scalar, mul_scalar, Except.ok.injEq] at h
    refine ⟨_, _, _, mul_scalar _ y, (re_scaleBy y _).trans h, mul_scalar _ _, mul_scalar _ _, ?_⟩
    exact (sum_eps_scaleBy y _).comm
  · rw [re_ofMatrix, re_ofMatrix] at h ⊢
    rw [eps_ofMatrix, eps_ofMatrix]
    obtain rfl := inner_eq_of_mul h
    rw [ofMatrix_mul, Except.ok.injEq] at h
    subst h
    refine ⟨_, _, _, ofMatrix_mul M N, ?_, ofMatrix_mul _ _, ofMatrix_mul _ _, ?_⟩
    · rw [re_ofMatrix, ofMatrix_inj]
      ext i j
      simp [Matrix.mul_apply, fst_sum]
    · have hsnd : (M * N).map snd = M.map snd * N.map fst + M.map fst * N.map snd := by
        ext i j
        simp [Matrix.mul_apply, snd_sum, Finset.sum_add_distrib, add_comm, mul_comm]
      rw [eps_ofMatrix, hsnd]
      exact .matrix _ _

end Value

end TraceCalculus
