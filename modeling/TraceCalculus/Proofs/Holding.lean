import TraceCalculus.Differential
import TraceCalculus.Proofs.Reading
import TraceCalculus.Proofs.Simplified

/-! # Holding a differential

`hold` makes a variable of every `d(X)`, named by its text. No differential of `X` is left
(`Expr.name?_ne_of_mem_hold`), and nothing else can be noticed (`Expr.hold_unseen`): the text stays
(`Expr.text_hold`), and so does the value or the error of the evaluator (`Expr.eval_hold`).

A differential binds tighter than a variable, but there is no place that brackets the one and not
the other (`Expr.needsBrackets_hold`). The evaluator looks a differential up by its text, also one
that has a held differential inside.
-/

set_option autoImplicit false

namespace TraceCalculus.Expr

variable {S : Type} [Scalar S] {wrt : String}

/-! ## Which differentials are left -/

/-- Nothing is given the name `wrt`: the text of `d(X)` is longer than `X`. -/
theorem name?_of_name?_hold {e : Expr S} (h : (e.hold wrt).name? = some wrt) :
    e.name? = some wrt := by
  cases e with
  | differential inner =>
    rw [hold] at h
    split at h
    case isTrue hn =>
      rw [name?, text_differential hn, Option.some.injEq] at h
      exact absurd h (text_differentialIn_ne S wrt)
    case isFalse => cases h
  | var | scalarVar => exact h
  | _ => cases h

/-- No differential of `wrt` is left. -/
theorem name?_ne_of_mem_hold {e inner : Expr S}
    (h : differential inner ∈ (e.hold wrt).postOrder) : inner.name? ≠ some wrt := by
  induction e with
  | var | scalarVar | literal | null => simp [hold, postOrder] at h
  | differential a ih =>
    rw [hold] at h
    split at h
    case isTrue => simp [postOrder] at h
    case isFalse hn =>
      rw [postOrder, List.mem_append, List.mem_singleton, differential.injEq] at h
      rcases h with h | rfl
      · exact ih h
      · exact fun h => hn (name?_of_name?_hold h)
  | trace a ih | transpose a ih =>
    simp only [hold, postOrder, List.mem_append, List.mem_singleton, reduceCtorEq, or_false] at h
    exact ih h
  | add a b iha ihb | sub a b iha ihb | scale a b iha ihb | matMul a b iha ihb =>
    simp only [hold, postOrder, List.mem_append, List.mem_singleton, reduceCtorEq, or_false] at h
    exact h.elim iha ihb

/-! ## The text -/

/-- A node binds as before, or it is a differential that has become a variable. -/
theorem precedence_hold (wrt : String) (e : Expr S) :
    (e.hold wrt).precedence = e.precedence ∨
      e.precedence = 0 ∧ (e.hold wrt).precedence = 1 := by
  cases e with
  | differential inner =>
    rw [hold]
    split
    · exact .inr ⟨rfl, rfl⟩
    · exact .inl rfl
  | _ => exact .inl rfl

/-- Operators bracket their operands as before: no operator binds tighter than a variable, and the
strict place is one of a sum. -/
theorem needsBrackets_hold {outer : Nat} {strict : Bool} (houter : 1 ≤ outer)
    (hstrict : strict = true → 1 < outer) (e : Expr S) :
    (e.hold wrt).needsBrackets outer strict = e.needsBrackets outer strict := by
  unfold needsBrackets
  rcases precedence_hold wrt e with h | ⟨h, h'⟩
  · rw [h]
  · rw [h, h', decide_eq_false (by omega), decide_eq_false (by omega)]
    cases strict with
    | false => rfl
    | true =>
      have := hstrict rfl
      rw [beq_eq_false_iff_ne.2 (by omega), beq_eq_false_iff_ne.2 (by omega)]

variable [NumericScalar S]

theorem text_hold (wrt : String) (e : Expr S) : (e.hold wrt).text = e.text := by
  induction e with
  | var | scalarVar | null => rfl
  | literal x => rw [hold, NumericScalar.anew_eq]
  | differential a ih =>
    rw [hold]
    split
    · rfl
    · rw [text, text, ih]
  | trace a ih => rw [hold, text, text, ih]
  | transpose a ih => rw [hold, text, text, ih, needsBrackets_hold (by decide) (by decide)]
  | add a b iha ihb | sub a b iha ihb | scale a b iha ihb | matMul a b iha ihb =>
    rw [hold, text, text, iha, ihb, needsBrackets_hold (by decide) (by decide),
      needsBrackets_hold (by decide) (by decide)]

/-! ## The value -/

/-- Where differentials are looked up by their text, held ones are found in the same place. -/
theorem eval_hold {env : Environment S} (hm : env.mode = .value) (e : Expr S) :
    (e.hold wrt).eval env = e.eval env := by
  induction e with
  | var | scalarVar | null => rfl
  | literal x => rw [hold, NumericScalar.anew_eq]
  | differential a =>
    have hlookup : ∀ b : Expr S, evalDifferential env b = env.lookup (differential b).text :=
      fun b => by rw [evalDifferential, hm]
    rw [hold]
    split
    · exact (hlookup a).symm
    · rw [eval, eval, hlookup, hlookup, text, text_hold, text]
  | trace a ih => rw [hold, eval, eval, ih]
  | transpose a ih => rw [hold, eval, eval, ih]
  | add a b iha ihb | sub a b iha ihb | scale a b iha ihb | matMul a b iha ihb =>
    rw [hold, eval, eval, iha, ihb]

/-! ## Holding again -/

theorem hold_hold (wrt : String) (e : Expr S) : (e.hold wrt).hold wrt = e.hold wrt := by
  induction e with
  | var | scalarVar | null => rfl
  | literal x => rw [hold, hold, NumericScalar.anew_eq]
  | differential a ih =>
    rw [hold]
    split
    case isTrue => rfl
    case isFalse hn => rw [hold, if_neg fun h => hn (name?_of_name?_hold h), ih]
  | trace a ih | transpose a ih => rw [hold, hold, ih]
  | add a b iha ihb | sub a b iha ihb | scale a b iha ihb | matMul a b iha ihb =>
    rw [hold, hold, iha, ihb]

/-- No number is in the differential of a variable, so holding leaves all of them. -/
theorem literal_mem_hold {e : Expr S} {x : S} :
    literal x ∈ (e.hold wrt).postOrder ↔ literal x ∈ e.postOrder := by
  induction e with
  | var | scalarVar | null => rfl
  | literal y => rw [hold, NumericScalar.anew_eq]
  | differential a ih =>
    rw [hold]
    split
    case isTrue hn => cases a <;> cases hn <;> simp [postOrder]
    case isFalse => simpa [postOrder] using ih
  | trace a ih | transpose a ih => simpa [hold, postOrder] using ih
  | add a b iha ihb | sub a b iha ihb | scale a b iha ihb | matMul a b iha ihb =>
    simp [hold, postOrder, iha, ihb]

/-- Holding the differentials of `wrt` leaves none of them, and neither the text of an expression nor
its value changes; held once, it stays as it is. The two compare equal if every literal compares equal
to itself, and only then. -/
theorem hold_unseen (wrt : String) (e : Expr S) :
    (∀ inner, differential inner ∈ (e.hold wrt).postOrder → inner.name? ≠ some wrt) ∧
      (e.hold wrt).text = e.text ∧
      (∀ env : Environment S, env.mode = .value → (e.hold wrt).eval env = e.eval env) ∧
      (e.hold wrt).hold wrt = e.hold wrt ∧
      (((e.hold wrt).hold wrt == e.hold wrt) = true ↔
        ∀ x, .literal x ∈ e.postOrder → (x == x) = true) := by
  refine ⟨fun _ => name?_ne_of_mem_hold, text_hold wrt e, fun env hm => eval_hold hm e,
    hold_hold wrt e, ?_⟩
  rw [hold_hold, beq_self_iff]
  exact forall_congr' fun x => imp_congr_left literal_mem_hold

/-- The difference of a differential of `A*d(X)` and the transpose of `d(X)`. -/
def nestedDifferential : Expr Int :=
  .sub (.differential (.matMul (.var "A") (.differential (.var "X"))))
    (.transpose (.differential (.var "X")))

/-- Values for the two differentials, one of which has the other one in its name. -/
def nestedDirection : Environment Int where
  values := [("d(X)", .matrix (.ofFn 1 2 fun _ j => j.val + 1)),
    ("d(A*d(X))", .matrix (.ofFn 2 1 fun i _ => i.val + 5))]

theorem hold_unseen_nestedDifferential :
    nestedDifferential.hold "X" =
        .sub (.differential (.matMul (.var "A") (.var "d(X)"))) (.transpose (.var "d(X)")) ∧
      (nestedDifferential.hold "X").text = "d(A*d(X))-d(X)'" ∧
      (nestedDifferential.hold "X").eval nestedDirection =
        .ok (.matrix (.ofFn 2 1 fun _ _ => 4)) ∧
      ((nestedDifferential.hold "X").hold "X" == nestedDifferential.hold "X") = true := by
  obtain ⟨-, htext, heval, -, hagain⟩ := hold_unseen "X" nestedDifferential
  refine ⟨by decide +kernel, ?_, ?_, hagain.2 fun x _ => beq_self_eq_true x⟩
  · rw [htext]
    decide +kernel
  · rw [heval nestedDirection rfl]
    rfl

/-- What is not a number stays where it is, but the two do not compare equal. -/
theorem hold_hold_notANumber :
    (((literal (0.0 / 0.0 : Float)).hold "X").hold "X" == (literal (0.0 / 0.0)).hold "X") = false := by
  decide +kernel

end TraceCalculus.Expr
