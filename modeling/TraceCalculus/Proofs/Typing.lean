import TraceCalculus.Proofs.Reading

/-! # Types of expressions

`Expr.HasType env e τ`: in the environment `env` the expression `e` has the type `τ`, a scalar or a
matrix of a given shape. The zero element has every type. A typed expression has a value of its type
under the reading that keeps types (`HasType.exists_means`).

The evaluator takes the zero element for the scalar zero wherever it stands, so the value it finds
need not have the type of the expression (`Value.Found`). If it does not, the expression is zero for a
reason that shows in its form (`Expr.Vanishes`), and the value found is zero too
(`HasType.eval_cases`).
-/

set_option autoImplicit false

namespace TraceCalculus

/-- The type of a value. -/
inductive ValueType where
  | scalar
  | matrix (shape : Shape)
  deriving DecidableEq

/-- The type of the transpose. -/
def ValueType.transpose : ValueType → ValueType
  | .scalar => .scalar
  | .matrix shape => .matrix ⟨shape.cols, shape.rows⟩

theorem ValueType.transpose_ne_scalar {τ : ValueType} (h : τ ≠ .scalar) : τ.transpose ≠ .scalar := by
  cases τ with
  | scalar => exact absurd rfl h
  | matrix => exact ValueType.noConfusion

namespace Value

variable {S : Type}

/-- The type of a value. -/
def type : Value S → ValueType
  | .scalar _ => .scalar
  | .matrix m => .matrix m.shape

@[simp] theorem type_scalar (x : S) : (Value.scalar x).type = .scalar := rfl

@[simp] theorem type_ofMatrix {m n : Nat} (M : Matrix (Fin m) (Fin n) S) :
    (ofMatrix M).type = .matrix ⟨m, n⟩ := rfl

theorem eq_scalar_of_type {v : Value S} (h : v.type = .scalar) : ∃ x, v = .scalar x := by
  cases v with
  | scalar x => exact ⟨x, rfl⟩
  | matrix m => cases h

theorem eq_ofMatrix_of_type {v : Value S} {m n : Nat} (h : v.type = .matrix ⟨m, n⟩) :
    ∃ M : Matrix (Fin m) (Fin n) S, v = ofMatrix M := by
  obtain ⟨x, rfl⟩ | ⟨p, q, M, rfl⟩ := v.exists_eq
  · cases h
  · cases h
    exact ⟨M, rfl⟩

theorem isMatrix_of_ne_scalar {v : Value S} (h : v.type ≠ .scalar) : v.isMatrix = true := by
  cases v with
  | scalar => exact absurd rfl h
  | matrix => rfl

@[simp] theorem type_transpose (v : Value S) : v.transpose.type = v.type.transpose := by
  cases v <;> rfl

variable [ExactScalar S]

@[simp] theorem type_scaleBy (x : S) (v : Value S) : (v.scaleBy x).type = v.type := by
  cases v <;> rfl

theorem type_of_trace {v t : Value S} (h : v.trace = .ok t) : t.type = .scalar := by
  obtain ⟨x, rfl, rfl⟩ | ⟨n, M, rfl, rfl⟩ := trace_cases h <;> rfl

theorem Sum.type_eq {u v w : Value S} (h : Sum u v w) : u.type = w.type ∧ v.type = w.type := by
  obtain ⟨x, y⟩ | ⟨M, N⟩ := h
  · exact ⟨rfl, rfl⟩
  · exact ⟨rfl, rfl⟩

theorem Difference.type_eq {u v w : Value S} (h : Difference u v w) :
    u.type = w.type ∧ v.type = w.type := by
  have ht := Sum.type_eq h
  rwa [type_scaleBy] at ht

/-- Two values can be added exactly if they have one type. -/
theorem exists_sum_iff {u v : Value S} : (∃ w, Sum u v w) ↔ u.type = v.type := by
  constructor
  · rintro ⟨w, h⟩
    exact h.type_eq.1.trans h.type_eq.2.symm
  · intro h
    obtain ⟨x, rfl⟩ | ⟨m, n, M, rfl⟩ := u.exists_eq
    · obtain ⟨y, rfl⟩ := eq_scalar_of_type h.symm
      exact ⟨_, .scalar x y⟩
    · obtain ⟨N, rfl⟩ := eq_ofMatrix_of_type h.symm
      exact ⟨_, .matrix M N⟩

theorem exists_difference {u v : Value S} (h : u.type = v.type) : ∃ w, Difference u v w := by
  obtain ⟨w, hw⟩ := exists_sum_iff.2 h
  exact hw.exists_scaled (-1)

/-- A zero of each type. -/
theorem exists_isZero (τ : ValueType) : ∃ v : Value S, v.type = τ ∧ v.IsZero := by
  cases τ with
  | scalar => exact ⟨.scalar 0, rfl, rfl⟩
  | matrix shape =>
    exact ⟨ofMatrix (0 : Matrix (Fin shape.rows) (Fin shape.cols) S), rfl, by simp⟩

/-- Adding a zero to a matrix changes nothing, whatever the type of the zero. -/
theorem add_isZero_right {u v w : Value S} (h : u.add v = .ok w) (hu : u.isMatrix = true)
    (hv : v.IsZero) : w = u := by
  obtain ⟨y, rfl⟩ | ⟨p, q, N, rfl⟩ := v.exists_eq
  · obtain ⟨x, rfl⟩ | ⟨m, n, M, rfl⟩ := u.exists_eq
    · simp at hu
    rw [isZero_scalar] at hv
    simp only [add, elementwise, ofMatrix, Grid.map_ofMatrix, Except.ok.injEq] at h
    subst h hv
    exact ofMatrix_inj.2 (by ext; simp)
  · exact (sum_iff.2 ⟨hu, h⟩).eq_of_isZero_right hv

theorem add_isZero_left {u v w : Value S} (h : u.add v = .ok w) (hv : v.isMatrix = true)
    (hu : u.IsZero) : w = v := by
  obtain ⟨y, rfl⟩ | ⟨p, q, N, rfl⟩ := u.exists_eq
  · obtain ⟨x, rfl⟩ | ⟨m, n, M, rfl⟩ := v.exists_eq
    · simp at hv
    rw [isZero_scalar] at hu
    simp only [add, elementwise, ofMatrix, Grid.map_ofMatrix, Except.ok.injEq] at h
    subst h hu
    exact ofMatrix_inj.2 (by ext; simp)
  · have hk : (ofMatrix N).isMatrix = v.isMatrix := hv.symm
    exact (sum_iff.2 ⟨hk, h⟩).eq_of_isZero_left hu

theorem add_isZero {u v w : Value S} (h : u.add v = .ok w) (hu : u.IsZero) (hv : v.IsZero) :
    w.IsZero := by
  obtain ⟨x, rfl⟩ | ⟨m, n, M, rfl⟩ := u.exists_eq
  · obtain ⟨y, rfl⟩ | ⟨p, q, N, rfl⟩ := v.exists_eq
    · cases h
      rw [isZero_scalar] at hu hv ⊢
      rw [hu, hv]
      exact add_zero 0
    · rwa [add_isZero_left h rfl hu]
  · rwa [add_isZero_right h rfl hv]

/-- `w` is found for the value `v` of the type: it is that value, or both are zero because of `p`.
Only a matrix can be missed in this way. -/
def Found (p : Prop) (τ : ValueType) (v w : Value S) : Prop :=
  v.type = τ ∧ (w = v ∨ p ∧ v.IsZero ∧ w.IsZero ∧ τ ≠ .scalar)

section Found

variable {p q : Prop} {τ : ValueType} {u u' v v' w t : Value S}

theorem found_self (p : Prop) (v : Value S) : Found p v.type v v := ⟨rfl, .inl rfl⟩

theorem Found.eq_of_scalar (h : Found p .scalar v w) : w = v := by
  obtain ⟨-, rfl | ⟨-, -, -, hs⟩⟩ := h
  · rfl
  · exact absurd rfl hs

/-- The scalar zero is found for a zero of any type. -/
theorem exists_found_zero (τ : ValueType) :
    ∃ v : Value S, v.IsZero ∧ Found True τ v (.scalar 0) := by
  by_cases hs : τ = .scalar
  · subst hs
    exact ⟨.scalar 0, rfl, found_self True _⟩
  · obtain ⟨v, hv, hz⟩ := exists_isZero (S := S) τ
    exact ⟨v, hz, hv, .inr ⟨trivial, hz, rfl, hs⟩⟩

theorem Found.scaleBy (h : Found p τ v w) (x : S) : Found p τ (v.scaleBy x) (w.scaleBy x) := by
  obtain ⟨hτ, rfl | ⟨hp, hv, hw, hs⟩⟩ := h
  · exact ⟨(type_scaleBy x w).trans hτ, .inl rfl⟩
  · exact ⟨(type_scaleBy x v).trans hτ, .inr ⟨hp, hv.scaleBy x, hw.scaleBy x, hs⟩⟩

theorem Found.transpose (h : Found p τ v w) : Found p τ.transpose v.transpose w.transpose := by
  obtain ⟨rfl, rfl | ⟨hp, hv, hw, hs⟩⟩ := h
  · exact ⟨type_transpose w, .inl rfl⟩
  · exact ⟨type_transpose v,
      .inr ⟨hp, hv.transpose, hw.transpose, ValueType.transpose_ne_scalar hs⟩⟩

theorem Found.add (hu : Found p τ u u') (hv : Found q τ v v') (h : u'.add v' = .ok w) :
    ∃ x, Sum u v x ∧ Found (p ∧ q) τ x w := by
  obtain ⟨hτ, hu⟩ := hu
  obtain ⟨hτ', hv⟩ := hv
  obtain ⟨x, hx⟩ := exists_sum_iff.2 (hτ.trans hτ'.symm)
  refine ⟨x, hx, hx.type_eq.1.symm.trans hτ, ?_⟩
  rcases hu with rfl | ⟨hp, hz, hz', hs⟩ <;> rcases hv with rfl | ⟨hq, hy, hy', hs⟩
  · exact .inl (Except.ok.inj (h.symm.trans hx.add_eq))
  · rw [hx.eq_of_isZero_right hy]
    exact .inl (add_isZero_right h (isMatrix_of_ne_scalar (hτ ▸ hs)) hy')
  · rw [hx.eq_of_isZero_left hz]
    exact .inl (add_isZero_left h (isMatrix_of_ne_scalar (hτ' ▸ hs)) hz')
  · rw [hx.eq_of_isZero_left hz]
    exact .inr ⟨⟨hp, hq⟩, hy, add_isZero h hz' hy', hs⟩

theorem Found.sub (hu : Found p τ u u') (hv : Found q τ v v') (h : u'.sub v' = .ok w) :
    ∃ x, Difference u v x ∧ Found (p ∧ q) τ x w :=
  hu.add (hv.scaleBy (-1)) (sub_eq_ok.1 h)

theorem Found.mul {m k n : Nat} (hu : Found p (.matrix ⟨m, k⟩) u u')
    (hv : Found q (.matrix ⟨k, n⟩) v v') (h : u'.mul v' = .ok w) :
    ∃ x, u.mul v = .ok x ∧ Found (p ∨ q) (.matrix ⟨m, n⟩) x w := by
  obtain ⟨hτ, hu⟩ := hu
  obtain ⟨hτ', hv⟩ := hv
  obtain ⟨M, rfl⟩ := eq_ofMatrix_of_type hτ
  obtain ⟨N, rfl⟩ := eq_ofMatrix_of_type hτ'
  have hx := ofMatrix_mul M N
  refine ⟨_, hx, rfl, ?_⟩
  rcases hu with rfl | ⟨hp, hz, hz', -⟩
  · rcases hv with rfl | ⟨hq, hy, hy', -⟩
    · exact .inl (Except.ok.inj (h.symm.trans hx))
    · exact .inr ⟨.inr hq, mul_isZero_right hx hy, mul_isZero_right h hy', ValueType.noConfusion⟩
  · exact .inr ⟨.inl hp, mul_isZero_left hx hz, mul_isZero_left h hz', ValueType.noConfusion⟩

/-- The trace does not depend on the type of a zero. -/
theorem Found.trace {n : Nat} (hv : Found p (.matrix ⟨n, n⟩) v w) (h : w.trace = .ok t) :
    v.trace = .ok t := by
  obtain ⟨hτ, rfl | ⟨-, hz, hw, -⟩⟩ := hv
  · exact h
  · obtain ⟨M, rfl⟩ := eq_ofMatrix_of_type hτ
    obtain ⟨x, rfl⟩ := eq_scalar_of_type (type_of_trace h)
    have hx : x = 0 := trace_isZero h hw
    rw [trace_ofMatrix, (isZero_ofMatrix M).1 hz, Matrix.trace_zero, hx]

end Found

end Value

namespace Expr

variable {S : Type} [ExactScalar S] {env : Environment S} {e : Expr S} {τ : ValueType}

/-- The expression has the type in the environment. -/
inductive HasType (env : Environment S) : Expr S → ValueType → Prop
  | var {name : String} {v : Value S} (h : env.get? name = some v) : HasType env (.var name) v.type
  | scalarVar {name : String} {x : S} (h : env.get? name = some (.scalar x)) :
      HasType env (.scalarVar name) .scalar
  | literal (x : S) : HasType env (.literal x) .scalar
  | null (τ : ValueType) : HasType env .null τ
  | differential {inner : Expr S} {name : String} {v : Value S} (hn : inner.name? = some name)
      (h : env.get? (differentialIn name : Expr S).text = some v) :
      HasType env (.differential inner) v.type
  | add {a b : Expr S} {τ : ValueType} (ha : HasType env a τ) (hb : HasType env b τ) :
      HasType env (.add a b) τ
  | sub {a b : Expr S} {τ : ValueType} (ha : HasType env a τ) (hb : HasType env b τ) :
      HasType env (.sub a b) τ
  | scale {s b : Expr S} {τ : ValueType} (hk : s.isScalar = true) (hs : HasType env s .scalar)
      (hb : HasType env b τ) : HasType env (.scale s b) τ
  | matMul {a b : Expr S} {m k n : Nat} (ha : HasType env a (.matrix ⟨m, k⟩))
      (hb : HasType env b (.matrix ⟨k, n⟩)) : HasType env (.matMul a b) (.matrix ⟨m, n⟩)
  | trace {a : Expr S} {n : Nat} (ha : HasType env a (.matrix ⟨n, n⟩)) :
      HasType env (.trace a) .scalar
  | traceScalar {a : Expr S} (ha : HasType env a .scalar) : HasType env (.trace a) .scalar
  | transpose {a : Expr S} {τ : ValueType} (ha : HasType env a τ) :
      HasType env (.transpose a) τ.transpose

/-- The expression is zero because of the zero elements in it. -/
def Vanishes : Expr S → Prop
  | .null => True
  | .add a b | .sub a b => a.Vanishes ∧ b.Vanishes
  | .matMul a b => a.Vanishes ∨ b.Vanishes
  | .scale _ a | .trace a | .transpose a => a.Vanishes
  | _ => False

omit [ExactScalar S] in
theorem Vanishes.hasNull_eq_true (h : e.Vanishes) : e.hasNull = true := by
  induction e with
  | null => rfl
  | add a b iha ihb | sub a b iha ihb => simp [hasNull, iha h.1]
  | matMul a b iha ihb =>
    rcases h with h | h
    · simp [hasNull, iha h]
    · simp [hasNull, ihb h]
  | scale s a ihs iha => simp [hasNull, iha h]
  | trace a iha | transpose a iha => simp [hasNull, iha h]
  | _ => cases h

/-- A typed expression has a value of its type. -/
theorem HasType.exists_means (h : HasType env e τ) :
    ∃ v, v.type = τ ∧ Means (.typed env) e v := by
  induction h with
  | var h => exact ⟨_, rfl, .var h⟩
  | scalarVar h => exact ⟨_, rfl, .scalarVar h⟩
  | literal x => exact ⟨_, rfl, .literal x⟩
  | null τ =>
    obtain ⟨v, hv, hz⟩ := Value.exists_isZero (S := S) τ
    exact ⟨v, hv, .null hz⟩
  | differential hn h => exact ⟨_, rfl, .differential hn h⟩
  | add _ _ iha ihb =>
    obtain ⟨u, rfl, ha⟩ := iha
    obtain ⟨v, hv, hb⟩ := ihb
    obtain ⟨w, hw⟩ := Value.exists_sum_iff.2 hv.symm
    exact ⟨w, hw.type_eq.1.symm, .add ha hb hw⟩
  | sub _ _ iha ihb =>
    obtain ⟨u, rfl, ha⟩ := iha
    obtain ⟨v, hv, hb⟩ := ihb
    obtain ⟨w, hw⟩ := Value.exists_difference hv.symm
    exact ⟨w, hw.type_eq.1.symm, .sub ha hb hw⟩
  | scale hk _ _ ihs ihb =>
    obtain ⟨u, hu, hs⟩ := ihs
    obtain ⟨x, rfl⟩ := Value.eq_scalar_of_type hu
    obtain ⟨v, hv, hb⟩ := ihb
    exact ⟨_, by rw [Value.type_scaleBy, hv], .scale hk hs hb⟩
  | matMul _ _ iha ihb =>
    obtain ⟨u, hu, ha⟩ := iha
    obtain ⟨M, rfl⟩ := Value.eq_ofMatrix_of_type hu
    obtain ⟨v, hv, hb⟩ := ihb
    obtain ⟨N, rfl⟩ := Value.eq_ofMatrix_of_type hv
    exact ⟨_, rfl, .matMul ha hb (fun _ => ⟨rfl, rfl⟩) (Value.ofMatrix_mul M N)⟩
  | trace _ iha =>
    obtain ⟨u, hu, ha⟩ := iha
    obtain ⟨M, rfl⟩ := Value.eq_ofMatrix_of_type hu
    exact ⟨_, rfl, .trace ha (Value.trace_ofMatrix M)⟩
  | traceScalar _ iha =>
    obtain ⟨u, hu, ha⟩ := iha
    obtain ⟨x, rfl⟩ := Value.eq_scalar_of_type hu
    exact ⟨_, rfl, .trace ha (Value.trace_scalar x)⟩
  | transpose _ iha =>
    obtain ⟨v, rfl, ha⟩ := iha
    exact ⟨_, Value.type_transpose v, .transpose ha⟩

/-- What the evaluator finds for a typed expression is a value of its type, up to the type of a zero
that shows in the form of the expression. -/
theorem HasType.exists_found (hm : env.mode = .value) (h : HasType env e τ) {w : Value S}
    (hw : e.eval env = .ok w) :
    ∃ v, Means (.typed env) e v ∧ Value.Found e.Vanishes τ v w := by
  induction h generalizing w with
  | var h =>
    obtain rfl := Option.some.inj (h.symm.trans (Environment.lookup_eq_ok.1 hw))
    exact ⟨_, .var h, Value.found_self _ _⟩
  | scalarVar h =>
    obtain rfl := Option.some.inj (h.symm.trans (Environment.lookup_eq_ok.1 hw))
    exact ⟨_, .scalarVar h, Value.found_self _ _⟩
  | literal x =>
    cases hw
    exact ⟨_, .literal x, Value.found_self _ _⟩
  | null τ =>
    cases hw
    obtain ⟨v, hz, hv⟩ := Value.exists_found_zero (S := S) τ
    exact ⟨v, .null hz, hv⟩
  | differential hn h =>
    have hw' := Environment.lookup_eq_ok.1 ((evalDifferential_value hm hn).symm.trans hw)
    obtain rfl := Option.some.inj (h.symm.trans hw')
    exact ⟨_, .differential hn h, Value.found_self _ _⟩
  | add _ _ iha ihb =>
    obtain ⟨u', v', ha', hb', hadd⟩ := eval_add_ok.1 hw
    obtain ⟨u, ha, hu⟩ := iha ha'
    obtain ⟨v, hb, hv⟩ := ihb hb'
    obtain ⟨x, hx, hfound⟩ := hu.add hv hadd
    exact ⟨x, .add ha hb hx, hfound⟩
  | sub _ _ iha ihb =>
    obtain ⟨u', v', ha', hb', hsub⟩ := eval_sub_ok.1 hw
    obtain ⟨u, ha, hu⟩ := iha ha'
    obtain ⟨v, hb, hv⟩ := ihb hb'
    obtain ⟨x, hx, hfound⟩ := hu.sub hv hsub
    exact ⟨x, .sub ha hb hx, hfound⟩
  | scale hk _ _ ihs ihb =>
    obtain ⟨u', v', hs', hb', hmul⟩ := eval_scale_ok.1 hw
    obtain ⟨u, hs, hu⟩ := ihs hs'
    obtain ⟨v, hb, hv⟩ := ihb hb'
    obtain ⟨x, rfl⟩ := Value.eq_scalar_of_type hu.1
    obtain rfl := hu.eq_of_scalar
    rw [Value.scalar_mul, Except.ok.injEq] at hmul
    subst hmul
    exact ⟨_, .scale hk hs hb, hv.scaleBy x⟩
  | matMul _ _ iha ihb =>
    obtain ⟨u', v', ha', hb', hmul⟩ := eval_matMul_ok.1 hw
    obtain ⟨u, ha, hu⟩ := iha ha'
    obtain ⟨v, hb, hv⟩ := ihb hb'
    obtain ⟨x, hx, hfound⟩ := hu.mul hv hmul
    have hmatrices : u.isMatrix = true ∧ v.isMatrix = true :=
      ⟨Value.isMatrix_of_ne_scalar (hu.1 ▸ ValueType.noConfusion),
        Value.isMatrix_of_ne_scalar (hv.1 ▸ ValueType.noConfusion)⟩
    exact ⟨x, .matMul ha hb (fun _ => hmatrices) hx, hfound⟩
  | trace _ iha =>
    obtain ⟨v', ha', ht⟩ := (eval_trace_ok hm).1 hw
    obtain ⟨v, ha, hv⟩ := iha ha'
    exact ⟨w, .trace ha (hv.trace ht), Value.type_of_trace ht, .inl rfl⟩
  | traceScalar _ iha =>
    obtain ⟨v', ha', ht⟩ := (eval_trace_ok hm).1 hw
    obtain ⟨v, ha, hv⟩ := iha ha'
    obtain rfl := hv.eq_of_scalar
    exact ⟨w, .trace ha ht, Value.type_of_trace ht, .inl rfl⟩
  | transpose _ iha =>
    obtain ⟨v', ha', rfl⟩ := eval_transpose_ok.1 hw
    obtain ⟨v, ha, hv⟩ := iha ha'
    exact ⟨_, .transpose ha, hv.transpose⟩

/-- The value found by the evaluator is one of the type, or the expression vanishes and so does the
value. Only a matrix can be missed in this way. -/
theorem HasType.eval_cases (hm : env.mode = .value) (h : HasType env e τ) {v : Value S}
    (hv : e.eval env = .ok v) :
    v.type = τ ∧ Means (.typed env) e v ∨ e.Vanishes ∧ v.IsZero ∧ τ ≠ .scalar := by
  obtain ⟨u, hu, hτ, rfl | ⟨hvanishes, -, hz, hs⟩⟩ := h.exists_found hm hv
  · exact .inl ⟨hτ, hu⟩
  · exact .inr ⟨hvanishes, hz, hs⟩

end Expr

end TraceCalculus
