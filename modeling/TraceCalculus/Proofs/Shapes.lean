import TraceCalculus.Proofs.ExactScalar
import TraceCalculus.Proofs.NameSets
import TraceCalculus.Value.Gradient

/-! # Shapes and errors do not depend on entries

Let the same names have values in two environments, each a scalar in both or a matrix of one shape in
both (`Environment.SameForm`). Then an expression has a value in both, of the same kind and shape, or
in neither, for the same reason; and so has a gradient (`Expr.eval_sameForm`). What the entries of the
matrices are makes no difference to that.

Every operation on values keeps the relation. The first operand without a value decides the error, so
it is the same one in both environments (`SameOutcome.bind`).
-/

set_option autoImplicit false

namespace TraceCalculus

variable {S : Type}

/-- Both fail for one reason, or both succeed with results that are related. -/
inductive SameOutcome {α : Type} (R : α → α → Prop) : Except EvalError α → Except EvalError α → Prop
  | error (e : EvalError) : SameOutcome R (.error e) (.error e)
  | ok {a b : α} (h : R a b) : SameOutcome R (.ok a) (.ok b)

theorem SameOutcome.bind {α β : Type} {R : α → α → Prop} {Q : β → β → Prop}
    {x y : Except EvalError α} {f g : α → Except EvalError β} (h : SameOutcome R x y)
    (hfg : ∀ {a b}, R a b → SameOutcome Q (f a) (g b)) : SameOutcome Q (x >>= f) (y >>= g) := by
  cases h with
  | error e => exact .error e
  | ok h => exact hfg h

/-- Two matrices of one shape. -/
structure Grid.SameShape (m n : Grid S) : Prop where
  shape : m.shape = n.shape

/-- Two scalars, or two matrices of one shape. -/
inductive Value.SameForm : Value S → Value S → Prop
  | scalar (x y : S) : SameForm (.scalar x) (.scalar y)
  | matrix {m n : Grid S} (h : m.SameShape n) : SameForm (.matrix m) (.matrix n)

/-- One mode and one distance of names, and values of the same kind and shape for the same names. -/
structure Environment.SameForm (env env' : Environment S) : Prop where
  mode : env.mode = env'.mode
  distance : env.distance = env'.distance
  values : ∀ name, Option.Rel Value.SameForm (env.get? name) (env'.get? name)

/-! ## Operations on values -/

namespace Grid

variable {m m' n n' : Grid S}

theorem SameShape.rows (h : m.SameShape n) : m.rows = n.rows := congrArg Shape.rows h.shape

theorem SameShape.cols (h : m.SameShape n) : m.cols = n.cols := congrArg Shape.cols h.shape

theorem sameShape_ofFn {rows rows' cols cols' : Nat} {f : Fin rows → Fin cols → S}
    {f' : Fin rows' → Fin cols' → S} (hrows : rows = rows') (hcols : cols = cols') :
    (ofFn rows cols f).SameShape (ofFn rows' cols' f') := by
  subst hrows hcols
  exact ⟨rfl⟩

theorem SameShape.map (h : m.SameShape n) (f g : S → S) : (m.map f).SameShape (n.map g) :=
  sameShape_ofFn h.rows h.cols

theorem SameShape.transpose (h : m.SameShape n) : m.transpose.SameShape n.transpose :=
  sameShape_ofFn h.cols h.rows

theorem SameShape.zipWith? (h : m.SameShape m') (h' : n.SameShape n') (f : S → S → S) :
    Option.Rel SameShape (m.zipWith? f n) (m'.zipWith? f n') := by
  unfold Grid.zipWith?
  by_cases hd : m.rows = n.rows ∧ m.cols = n.cols
  · rw [dif_pos hd, dif_pos (by rwa [← h.rows, ← h.cols, ← h'.rows, ← h'.cols])]
    exact .some (sameShape_ofFn h.rows h.cols)
  · rw [dif_neg hd, dif_neg (by rwa [← h.rows, ← h.cols, ← h'.rows, ← h'.cols])]
    exact .none

theorem SameShape.mul? [Scalar S] (h : m.SameShape m') (h' : n.SameShape n') :
    Option.Rel SameShape (m.mul? n) (m'.mul? n') := by
  unfold Grid.mul?
  by_cases hd : m.cols = n.rows
  · rw [dif_pos hd, dif_pos (by rwa [← h.cols, ← h'.rows])]
    exact .some (sameShape_ofFn h.rows h'.cols)
  · rw [dif_neg hd, dif_neg (by rwa [← h.cols, ← h'.rows])]
    exact .none

theorem SameShape.isSome_trace? [Scalar S] (h : m.SameShape n) :
    m.trace?.isSome = n.trace?.isSome := by
  unfold Grid.trace?
  by_cases hd : m.rows = m.cols
  · rw [dif_pos hd, dif_pos (by rwa [← h.rows, ← h.cols])]
    rfl
  · rw [dif_neg hd, dif_neg (by rwa [← h.rows, ← h.cols])]

end Grid

namespace Value

variable {v v' w w' : Value S}

/-- Of the same form are the values of the same kind and shape. -/
theorem sameForm_iff : v.SameForm w ↔ v.typeName = w.typeName ∧ v.shape = w.shape := by
  constructor
  · rintro (_ | h)
    · exact ⟨rfl, rfl⟩
    · exact ⟨rfl, h.shape⟩
  · rintro ⟨hkind, hshape⟩
    cases v <;> cases w
    case scalar.scalar x y => exact .scalar x y
    case matrix.matrix => exact .matrix ⟨hshape⟩
    all_goals simp [typeName] at hkind

theorem SameForm.shape_eq (h : v.SameForm w) : v.shape = w.shape := (sameForm_iff.1 h).2

theorem SameForm.transpose (h : v.SameForm w) : v.transpose.SameForm w.transpose := by
  cases h with
  | scalar x y => exact .scalar x y
  | matrix h => exact .matrix h.transpose

theorem SameForm.elementwise (h : v.SameForm v') (h' : w.SameForm w') (op : Operator)
    (f : S → S → S) : SameOutcome SameForm (v.elementwise op f w) (v'.elementwise op f w') := by
  cases h with
  | scalar x y =>
    cases h' with
    | scalar => exact .ok (.scalar _ _)
    | matrix h' => exact .ok (.matrix (h'.map _ _))
  | @matrix m m' h =>
    cases h' with
    | scalar => exact .ok (.matrix (h.map _ _))
    | @matrix n n' h' =>
      have hzip := h.zipWith? h' f
      simp only [Value.elementwise, h.shape, h'.shape]
      generalize m.zipWith? f n = x at hzip ⊢
      generalize m'.zipWith? f n' = y at hzip ⊢
      cases hzip with
      | some h => exact .ok (.matrix h)
      | none => exact .error _

variable [Scalar S]

theorem SameForm.mul (h : v.SameForm v') (h' : w.SameForm w') :
    SameOutcome SameForm (v.mul w) (v'.mul w') := by
  cases h with
  | scalar x y => exact SameForm.elementwise (.scalar x y) h' .times (· * ·)
  | @matrix m m' h =>
    cases h' with
    | scalar x y => exact SameForm.elementwise (.matrix h) (.scalar x y) .times (· * ·)
    | @matrix n n' h' =>
      have hmul := h.mul? h'
      simp only [Value.mul, h.shape, h'.shape]
      generalize m.mul? n = x at hmul ⊢
      generalize m'.mul? n' = y at hmul ⊢
      cases hmul with
      | some h => exact .ok (.matrix h)
      | none => exact .error _

theorem SameForm.trace (h : v.SameForm w) : SameOutcome SameForm v.trace w.trace := by
  cases h with
  | scalar x y => exact .ok (.scalar x y)
  | @matrix m n h =>
    have htrace := h.isSome_trace?
    simp only [Value.trace, h.shape]
    cases hm : m.trace? <;> cases hn : n.trace? <;> rw [hm, hn] at htrace
    case none.none => exact .error _
    case some.some x y => exact .ok (.scalar x y)
    all_goals cases htrace

end Value

/-! ## Environments -/

namespace Environment.SameForm

variable {env env' : Environment S} (h : env.SameForm env')
include h

theorem withMode (mode : Mode) : (env.withMode mode).SameForm (env'.withMode mode) :=
  ⟨rfl, h.distance, h.values⟩

theorem names_eq : env.names = env'.names := by
  refine Environment.names_eq fun name => ?_
  have hvalue := h.values name
  generalize env.get? name = x at hvalue ⊢
  generalize env'.get? name = y at hvalue ⊢
  cases hvalue <;> rfl

theorem lookup (name : String) :
    SameOutcome Value.SameForm (env.lookup name) (env'.lookup name) := by
  have hvalue := h.values name
  unfold Environment.lookup similarNames
  rw [h.names_eq, h.distance]
  generalize env.get? name = x at hvalue ⊢
  generalize env'.get? name = y at hvalue ⊢
  cases hvalue with
  | some hform => exact .ok hform
  | none => exact .error _

end Environment.SameForm

/-! ## Expressions -/

namespace Expr

variable [Scalar S] {env env' : Environment S}

theorem evalDifferential_sameForm (h : env.SameForm env') (e : Expr S) :
    SameOutcome Value.SameForm (e.evalDifferential env) (e.evalDifferential env') := by
  unfold evalDifferential
  rw [h.mode]
  split
  case h_1 wrt _ =>
    split
    case isTrue =>
      refine (h.lookup wrt).bind fun hform => ?_
      rw [hform.shape_eq]
      exact .ok (.matrix ⟨rfl⟩)
    case isFalse => exact h.lookup _
  case h_2 => exact h.lookup _

theorem sameOutcome_eval (h : env.SameForm env') (e : Expr S) :
    SameOutcome Value.SameForm (e.eval env) (e.eval env') := by
  induction e with
  | var name | scalarVar name => exact h.lookup name
  | literal x => exact .ok (.scalar x x)
  | null => exact .ok (.scalar 0 0)
  | differential a => exact evalDifferential_sameForm h a
  | add a b iha ihb => exact iha.bind fun hv => ihb.bind fun hw => hv.elementwise hw .plus _
  | sub a b iha ihb => exact iha.bind fun hv => ihb.bind fun hw => hv.elementwise hw .minus _
  | scale a b iha ihb | matMul a b iha ihb =>
    exact iha.bind fun hv => ihb.bind fun hw => hv.mul hw
  | trace a ih =>
    refine ih.bind fun hv => ?_
    rw [h.mode]
    split
    · exact .ok hv
    · exact hv.trace
  | transpose a ih => exact ih.bind fun hv => .ok hv.transpose

/-- An expression has values of the same kind and shape in two environments of the same form, or
fails in both for one reason; and so does its gradient. -/
theorem eval_sameForm (h : env.SameForm env') (e : Expr S) :
    SameOutcome Value.SameForm (e.eval env) (e.eval env') ∧
      ∀ wrt, SameOutcome Grid.SameShape (e.gradient wrt env) (e.gradient wrt env') := by
  refine ⟨sameOutcome_eval h e, fun wrt => ?_⟩
  have hpoint := h.values wrt
  have hmode := sameOutcome_eval (h.withMode (.gradient wrt)) e
  unfold gradient
  generalize env.get? wrt = x at hpoint ⊢
  generalize env'.get? wrt = y at hpoint ⊢
  cases hpoint with
  | none => exact .error _
  | some hpoint =>
    refine hmode.bind fun hv => ?_
    rw [hpoint.shape_eq]
    cases hv with
    | scalar => exact .ok (Grid.sameShape_ofFn rfl rfl)
    | matrix h => exact .ok h.transpose

end Expr

/-- A matrix with two rows and three columns, and a scalar. -/
def sampleOf (k : Int) : Environment Int where
  values := [("X", .matrix (.ofFn 2 3 fun i j => k * (i.val + j.val))), ("s", .scalar k)]

theorem sampleOf_sameForm (k l : Int) : (sampleOf k).SameForm (sampleOf l) where
  mode := rfl
  distance := rfl
  values name := by
    simp only [sampleOf, Environment.get?, List.lookup_cons]
    split
    · exact .some (.matrix (Grid.sameShape_ofFn rfl rfl))
    · split
      · exact .some (.scalar k l)
      · exact .none

/-- Its value in gradient mode is the transpose of `X`. -/
def halfSquare : Expr Int := .trace (.matMul (.transpose (.var "X")) (.differential (.var "X")))

theorem Expr.eval_sameForm_sampleOf : (sampleOf 0).SameForm (sampleOf 1) ∧
    (∃ error, halfSquare.eval (sampleOf 0) = .error error ∧
      halfSquare.eval (sampleOf 1) = .error error) ∧
    ∃ m n, halfSquare.gradient "X" (sampleOf 0) = .ok m ∧
      halfSquare.gradient "X" (sampleOf 1) = .ok n ∧ m.SameShape n := by
  have h := sampleOf_sameForm 0 1
  obtain ⟨heval, hgradient⟩ := Expr.eval_sameForm h halfSquare
  replace hgradient := hgradient "X"
  refine ⟨h, ?_, ?_⟩
  · have hnone : (halfSquare.eval (sampleOf 0)).isOk = false := by decide +kernel
    generalize halfSquare.eval (sampleOf 0) = x at heval hnone ⊢
    generalize halfSquare.eval (sampleOf 1) = y at heval ⊢
    cases heval with
    | error error => exact ⟨error, rfl, rfl⟩
    | ok => cases hnone
  · have hsome : (halfSquare.gradient "X" (sampleOf 0)).isOk = true := rfl
    generalize halfSquare.gradient "X" (sampleOf 0) = x at hgradient hsome ⊢
    generalize halfSquare.gradient "X" (sampleOf 1) = y at hgradient ⊢
    cases hgradient with
    | error => cases hsome
    | ok hshape => exact ⟨_, _, rfl, rfl, hshape⟩

end TraceCalculus
