import TraceCalculus.Proofs.ProductSteps

/-! # How sums, transposes and traces are built

`Expr.Plus a b c` says that `c` is the sum of `a` and `b`, by the case of the addition that makes it;
`Expr.Minus`, `Expr.Transposition` and `Expr.Tracing` do so for the other constructors. Facts about
them are proved by cases, as facts about products are by induction on `Expr.Product`.

Each constructor has operands over which it only makes a node: `Expr.Distinct` for sums and
differences, `Expr.Scaling` and `Expr.Multiplying` for the two kinds of products, `Expr.isTurnable`
for transposes and `Expr.isTraceable` for traces.
-/

set_option autoImplicit false

namespace TraceCalculus.Expr

variable {S : Type}

/-- Whether a transpose is kept on the expression. -/
def isTurnable : Expr S → Bool
  | .null | .transpose _ | .trace _ => false
  | e => !e.isScalar

/-- Whether a trace is kept on the expression. -/
def isTraceable (e : Expr S) : Bool := !e.isNull && !e.isScalar

theorem isTraceable_iff {e : Expr S} :
    e.isTraceable = true ↔ e.isNull = false ∧ e.isScalar = false := by
  simp [isTraceable]

theorem isTraceable_of_isTurnable {e : Expr S} (h : e.isTurnable = true) :
    e.isTraceable = true := by
  cases e <;> simp_all [isTurnable, isTraceable, isNull]

/-! ## Transposes and traces -/

/-- `Transposition a c`: transposing `a` gives `c`. -/
inductive Transposition : Expr S → Expr S → Prop
  | null : Transposition .null .null
  | turnBack (a : Expr S) : Transposition (.transpose a) a
  | trace (a : Expr S) : Transposition (.trace a) (.trace a)
  | scalar {a : Expr S} (h : a.isScalar = true) : Transposition a a
  | transpose {a : Expr S} (h : a.isTurnable = true) : Transposition a (.transpose a)

theorem transposed_of_isTurnable {a : Expr S} (h : a.isTurnable = true) :
    a.transposed = .transpose a := by
  cases a with
  | scale k b =>
    have hs : (scale k b).isScalar = false := by simpa [isTurnable] using h
    exact if_neg (by simp [hs])
  | _ => first | rfl | cases h

theorem transposition_transposed (a : Expr S) : Transposition a a.transposed := by
  by_cases h : a.isTurnable = true
  · rw [transposed_of_isTurnable h]
    exact .transpose h
  cases a with
  | null => exact .null
  | transpose a => exact .turnBack a
  | trace a => exact .trace a
  | scale k b =>
    have hs : (scale k b).isScalar = true := by simpa [isTurnable] using h
    have heq : (scale k b).transposed = scale k b := if_pos hs
    rw [heq]
    exact .scalar hs
  | literal | scalarVar => exact .scalar rfl
  | _ => exact absurd rfl h

/-- `Tracing a c`: the trace of `a` is `c`. -/
inductive Tracing : Expr S → Expr S → Prop
  | null : Tracing .null .null
  | scalar {a : Expr S} (h : a.isScalar = true) : Tracing a a
  | trace {a : Expr S} (h : a.isTraceable = true) : Tracing a (.trace a)

theorem traced_of_isTraceable {a : Expr S} (h : a.isTraceable = true) : a.traced = .trace a := by
  obtain ⟨hn, hs⟩ := isTraceable_iff.1 h
  unfold traced
  split
  · cases hn
  · rw [hs, if_neg Bool.false_ne_true]

theorem tracing_traced (a : Expr S) : Tracing a a.traced := by
  by_cases h : a.isTraceable = true
  · rw [traced_of_isTraceable h]
    exact .trace h
  unfold traced
  split
  · exact .null
  · rename_i hn
    have hs : a.isScalar = true := by simpa [isTraceable, isNull_eq_false hn] using h
    rw [if_pos hs]
    exact .scalar hs

variable [Scalar S]

/-! ## Products -/

/-- Operands that a product leaves as a scaled expression. -/
structure Scaling (a b : Expr S) : Prop extends Proper a b where
  scalar : a.isScalar = true
  unscaled : b.scaled? = none

/-- Operands that a product leaves as a matrix product. -/
structure Multiplying (a b : Expr S) : Prop extends Proper a b where
  matrixLeft : a.isScalar = false
  matrixRight : b.isScalar = false
  unscaledLeft : a.scaled? = none
  unscaledRight : b.scaled? = none

theorem productStep_of_proper (mul : Expr S → Expr S → Expr S) {a b : Expr S} (h : Proper a b) :
    productStep mul a b = combine mul a b := by
  rw [productStep, h.left, h.right, h.literal]
  cases hx : a.value? with
  | none => rfl
  | some x => simp [h.one x hx]

/-- What two proper operands are combined to. -/
theorem times_of_proper {a b : Expr S} (h : Proper a b) : ∃ mul, a * b = combine mul a b := by
  have hd : 0 < productDepth a b := Nat.mul_pos (by decide) (Nat.pow_pos (Nat.succ_pos _))
  obtain ⟨depth, hdepth⟩ := Nat.exists_eq_succ_of_ne_zero hd.ne'
  refine ⟨productWithin depth, ?_⟩
  change times a b = _
  rw [times, hdepth, productWithin, productStep_of_proper _ h]

theorem times_of_scaling {a b : Expr S} (h : a.Scaling b) : a * b = .scale a.asOperand b := by
  obtain ⟨mul, hmul⟩ := times_of_proper h.toProper
  rw [hmul, combine, if_pos h.scalar, h.unscaled]

theorem times_of_multiplying {a b : Expr S} (h : a.Multiplying b) : a * b = .matMul a b := by
  obtain ⟨mul, hmul⟩ := times_of_proper h.toProper
  simp [hmul, combine, h.matrixLeft, h.matrixRight, h.unscaledLeft, h.unscaledRight]

/-- A product has a differential if one of its operands has, unless it is absorbed. -/
theorem Product.hasDifferential {a b c : Expr S} (h : Product a b c) :
    c = .null ∨ c.hasDifferential = (a.hasDifferential || b.hasDifferential) := by
  induction h with
  | nullLeft | nullRight => exact .inl rfl
  | fold | oneLeft => exact .inr rfl
  | oneRight => exact .inr (Bool.or_false _).symm
  | swap _ _ _ _ ih => exact ih.imp_right fun h => h.trans (Bool.or_comm _ _)
  | @scaleLeft a b => exact .inr (by cases a <;> rfl)
  | @scaleRight a b => exact .inr ((Bool.or_comm _ _).trans (by cases b <;> rfl))
  | matMul => exact .inr rfl
  | mergeLeft _ _ ht hc iht ihc | mergeRight _ _ _ ht hc iht ihc =>
    rcases iht with rfl | iht
    · exact .inl hc.eq_null_left
    · refine ihc.imp_right fun ihc => ?_
      simp only [contains] at iht ihc ⊢
      simp [ihc, iht, Bool.or_assoc, Bool.or_comm, Bool.or_left_comm]
  | mergeBoth _ _ _ ht hm hc iht ihm ihc =>
    rcases iht with rfl | iht
    · exact .inl hc.eq_null_left
    rcases ihm with rfl | ihm
    · exact .inl hc.eq_null_right
    · refine ihc.imp_right fun ihc => ?_
      simp only [contains] at iht ihm ihc ⊢
      simp [ihc, iht, ihm, Bool.or_assoc, Bool.or_left_comm]
  | hoistLeft _ _ _ _ hm hc ihm ihc | hoistRight _ _ _ _ hm hc ihm ihc =>
    rcases ihm with rfl | ihm
    · exact .inl hc.eq_null_right
    · refine ihc.imp_right fun ihc => ?_
      simp only [contains] at ihm ihc ⊢
      simp [ihc, ihm, Bool.or_assoc, Bool.or_left_comm]

/-! ## Sums and differences -/

/-- Operands that a sum or difference keeps apart. -/
structure Distinct (a b : Expr S) : Prop where
  left : a.isNull = false
  right : b.isNull = false
  literal : a.value? = none ∨ b.value? = none
  ne : (a == b) = false

/-- `Plus a b c`: adding `a` and `b` gives `c`. -/
inductive Plus : Expr S → Expr S → Expr S → Prop
  | nullLeft (b : Expr S) : Plus .null b b
  | nullRight (a : Expr S) : Plus a .null a
  | fold (x y : S) : Plus (.literal x) (.literal y) (.literal (x + y))
  | double {a b c : Expr S} (ha : a.isNull = false) (h : (a == b) = true)
      (hc : Product (.literal Scalar.two) a c) : Plus a b c
  | add {a b : Expr S} (h : a.Distinct b) : Plus a b (.add a.asOperand b.asOperand)

/-- `Minus a b c`: subtracting `b` from `a` gives `c`. -/
inductive Minus : Expr S → Expr S → Expr S → Prop
  | nullRight (a : Expr S) : Minus a .null a
  | nullLeft {b c : Expr S} (hb : b.isNull = false) (hc : Product (.literal (-1)) b c) :
      Minus .null b c
  | cancel {a b : Expr S} (h : (a == b) = true) : Minus a b .null
  | fold {x y : S} (h : (x == y) = false) :
      Minus (.literal x) (.literal y) (.literal (x - y))
  | sub {a b : Expr S} (h : a.Distinct b) : Minus a b (.sub a.asOperand b.asOperand)

/-- The addition, asking for one thing after another. -/
theorem plus_eq_ite (a b : Expr S) : a + b =
    if a.isNull then b else if b.isNull then a
    else match a.value?, b.value? with
      | some x, some y => .literal (x + y)
      | _, _ => if a == b then .literal Scalar.two * a else .add a.asOperand b.asOperand := by
  cases a <;> cases b <;> rfl

/-- The subtraction, asking for one thing after another. -/
theorem minus_eq_ite (a b : Expr S) : a - b =
    if b.isNull then a else if a.isNull then .literal (-1) * b else if a == b then .null
    else match a.value?, b.value? with
      | some x, some y => .literal (x - y)
      | _, _ => .sub a.asOperand b.asOperand := by
  cases a <;> cases b <;> rfl

omit [Scalar S] in
theorem value?_eq_none_or {a b : Expr S} (h : ∀ x y, a.value? = some x → b.value? ≠ some y) :
    a.value? = none ∨ b.value? = none := by
  cases hx : a.value? with
  | none => exact .inl rfl
  | some x =>
    cases hy : b.value? with
    | none => exact .inr rfl
    | some y => exact absurd hy (h x y hx)

theorem plus_add (a b : Expr S) : Plus a b (a + b) := by
  rw [plus_eq_ite]
  split
  case isTrue ha =>
    rw [isNull_iff.1 ha]
    exact .nullLeft b
  split
  case isTrue hb =>
    rw [isNull_iff.1 hb]
    exact .nullRight a
  rename_i ha hb
  rw [Bool.not_eq_true] at ha hb
  split
  case h_1 x y hx hy =>
    rw [value?_eq_some.1 hx, value?_eq_some.1 hy]
    exact .fold x y
  case h_2 hl =>
    split
    case isTrue h => exact .double ha h (product_times _ a)
    case isFalse h =>
      exact .add ⟨ha, hb, value?_eq_none_or hl, by simpa using h⟩

theorem minus_sub (a b : Expr S) : Minus a b (a - b) := by
  rw [minus_eq_ite]
  split
  case isTrue hb =>
    rw [isNull_iff.1 hb]
    exact .nullRight a
  split
  case isTrue ha =>
    rename_i hb
    rw [isNull_iff.1 ha]
    exact .nullLeft (by simpa using hb) (product_times _ b)
  split
  case isTrue h => exact .cancel h
  rename_i hb ha hab
  rw [Bool.not_eq_true] at ha hb hab
  split
  case h_1 x y hx hy =>
    rw [value?_eq_some.1 hx, value?_eq_some.1 hy] at hab ⊢
    exact .fold hab
  case h_2 hl => exact .sub ⟨ha, hb, value?_eq_none_or hl, hab⟩

theorem plus_of_distinct {a b : Expr S} (h : a.Distinct b) :
    a + b = .add a.asOperand b.asOperand := by
  have hplus := plus_add a b
  generalize a + b = c at hplus
  cases hplus with
  | nullLeft => cases h.left
  | nullRight => cases h.right
  | fold => rcases h.literal with hl | hl <;> cases hl
  | double _ heq =>
    rw [h.ne] at heq
    cases heq
  | add => rfl

theorem minus_of_distinct {a b : Expr S} (h : a.Distinct b) :
    a - b = .sub a.asOperand b.asOperand := by
  have hminus := minus_sub a b
  generalize a - b = c at hminus
  cases hminus with
  | nullRight => cases h.right
  | nullLeft => cases h.left
  | cancel heq =>
    rw [h.ne] at heq
    cases heq
  | fold => rcases h.literal with hl | hl <;> cases hl
  | sub => rfl

end TraceCalculus.Expr
