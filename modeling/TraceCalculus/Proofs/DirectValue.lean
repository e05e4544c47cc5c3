import TraceCalculus.Proofs.FormulaMeaning

/-! # The value of a formula

A formula has a value of its own (`Formula.value?`): each node applies the operation of the evaluator
that it is written with, and nothing is simplified. If no sum or difference joins a scalar with a
matrix (`Formula.Uniform`), it is what the formula means (`Formula.means_of_value`), and the expression
that the formula stands for evaluates to it (`Formula.eval_toExpr`). Terms that cancel leave the zero
element, whose value is a number even where the formula has a matrix.
-/

set_option autoImplicit false

namespace TraceCalculus

variable {S : Type}

/-- The operation of an operator on values. -/
def Value.joined [Scalar S] (op : Operator) (u v : Value S) : Except EvalError (Value S) :=
  match op with
  | .plus => u.add v
  | .minus => u.sub v
  | .times => u.mul v

namespace Formula

/-- The value of a formula, node by node. -/
def value? [Scalar S] (env : Environment S) : Formula S → Option (Value S)
  | .number x _ => some (.scalar x)
  | .symbol name _ => env.get? name
  | .paren inner _ => inner.value? env
  | .neg operand _ => do ((Value.scalar (-1)).mul (← operand.value? env)).toOption
  | .transpose operand _ => do return (← operand.value? env).transpose
  | .binary op _ lhs rhs _ => do
    let u ← lhs.value? env
    let v ← rhs.value? env
    (u.joined op v).toOption
  | .call name _ arg _ =>
    if name = "Tr" ∨ name = "tr" then do (← arg.value? env).trace.toOption
    else if name = "d" then do env.get? ("d(" ++ (← arg.tree.symbol?) ++ ")")
    else none

/-- No sum or difference joins a scalar with a matrix. -/
def Uniform [Scalar S] (env : Environment S) : Formula S → Prop
  | .number _ _ | .symbol _ _ => True
  | .paren f _ | .neg f _ | .transpose f _ | .call _ _ f _ => f.Uniform env
  | .binary op _ lhs rhs _ =>
    lhs.Uniform env ∧ rhs.Uniform env ∧ (op ≠ .times →
      ∀ u v, lhs.value? env = some u → rhs.value? env = some v → u.isMatrix = v.isMatrix)

variable [ExactScalar S] {env : Environment S} {declared : Declarations}

theorem means_of_value {f : Formula S} {v : Value S} (h : f.value? env = some v)
    (hf : f.Uniform env) : f.tree.Means env v := by
  have hok : ∀ {x : Except EvalError (Value S)} {w : Value S}, x.toOption = some w → x = .ok w := by
    rintro (_ | _) w hw <;> cases hw
    rfl
  induction f generalizing v with
  | number x span => cases h; exact .number x
  | symbol name span => exact .symbol h
  | paren inner span ih => exact .paren (ih h hf)
  | neg operand span ih =>
    obtain ⟨u, hu, h⟩ := Option.bind_eq_some_iff.1 h
    obtain rfl := Except.ok.inj ((Value.scalar_mul _ _).symm.trans (hok h))
    exact .neg (ih hu hf)
  | transpose operand span ih =>
    obtain ⟨u, hu, h⟩ := Option.bind_eq_some_iff.1 h
    cases h
    exact .transpose (ih hu hf)
  | binary op opSpan lhs rhs span ihl ihr =>
    obtain ⟨u, hu, h⟩ := Option.bind_eq_some_iff.1 h
    obtain ⟨w, hw, h⟩ := Option.bind_eq_some_iff.1 h
    obtain ⟨hl, hr, hkind⟩ := hf
    have hjoin := hok h
    cases op with
    | plus => exact .plus (ihl hu hl) (ihr hw hr) (Value.sum_iff.2 ⟨hkind nofun u w hu hw, hjoin⟩)
    | minus =>
      exact .minus (ihl hu hl) (ihr hw hr)
        (Value.difference_iff.2 ⟨hkind nofun u w hu hw, hjoin⟩)
    | times => exact .times (ihl hu hl) (ihr hw hr) hjoin
  | call name nameSpan arg span ih =>
    simp only [value?] at h
    split at h
    case isTrue hn =>
      obtain ⟨u, hu, h⟩ := Option.bind_eq_some_iff.1 h
      exact .trace hn (ih hu hf) (hok h)
    case isFalse =>
      split at h
      case isTrue hd =>
        subst hd
        obtain ⟨inner, hinner, h⟩ := Option.bind_eq_some_iff.1 h
        exact .differential hinner h
      case isFalse => cases h

/-- The expression that a formula stands for evaluates to the value of the formula; only a zero may
lose its shape. -/
theorem eval_toExpr {f : Formula S} {e : Expr S} {v : Value S} (hm : env.mode = .value)
    (hscalar : ∀ name, declared.isScalar name = true →
      ∀ u, env.get? name = some u → u.isMatrix = false)
    (h : f.toExpr declared = .ok e) (hv : f.value? env = some v) (hf : f.Uniform env) :
    e.eval env = .ok v ∨ e.eval env = .ok (.scalar 0) ∧ v.IsZero := by
  obtain hmeans | ⟨rfl, hzero⟩ := stands_toExpr hscalar h (means_of_value hv hf)
  · exact .inl (hmeans.eval_eq hm)
  · exact .inr ⟨rfl, hzero⟩

/-- The formula `c*X*3 - -X`. -/
def sampleScaled : Formula Int :=
  .binary .minus ⟨6, 7⟩
    (.binary .times ⟨3, 4⟩
      (.binary .times ⟨1, 2⟩ (.symbol "c" ⟨0, 1⟩) (.symbol "X" ⟨2, 3⟩) ⟨0, 3⟩)
      (.number 3 ⟨4, 5⟩) ⟨0, 5⟩)
    (.neg (.symbol "X" ⟨9, 10⟩) ⟨8, 10⟩) ⟨0, 10⟩

/-- A scalar and a row. -/
def sampleRow : Environment Int where
  values := [("c", .scalar 2), ("X", .matrix (.ofFn 1 2 fun _ j => j.val))]

theorem eval_toExpr_scaled : ∃ e v, sampleScaled.toExpr (.declare {} "c") = .ok e ∧
    sampleScaled.value? sampleRow = some v ∧
      (e.eval sampleRow = .ok v ∨ e.eval sampleRow = .ok (.scalar 0) ∧ v.IsZero) := by
  obtain ⟨e, he⟩ : ∃ e, sampleScaled.toExpr (.declare {} "c") = .ok e := ⟨_, rfl⟩
  obtain ⟨v, hv⟩ : ∃ v, sampleScaled.value? sampleRow = some v := ⟨_, rfl⟩
  have hscalar : ∀ name, Declarations.isScalar (.declare {} "c") name = true →
      ∀ u, sampleRow.get? name = some u → u.isMatrix = false := by
    intro name hname u hu
    obtain rfl : name = "c" := by simpa using hname
    cases hu
    rfl
  have huniform : sampleScaled.Uniform sampleRow := by
    refine ⟨⟨⟨trivial, trivial, nofun⟩, trivial, nofun⟩, trivial, fun _ u w hu hw => ?_⟩
    cases hu
    cases hw
    rfl
  exact ⟨e, v, he, hv, eval_toExpr rfl hscalar he hv huniform⟩

end Formula

end TraceCalculus
