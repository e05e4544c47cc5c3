import TraceCalculus.Proofs.ValueLaws
import TraceCalculus.Value.Evaluation

/-! # What an expression means

`Expr.Means I e v`: under the reading `I` of its variables, `v` is a value of `e`. Unlike the
evaluator it joins only values of one type by a sum or a difference, and asks the factor of a scaled
expression to be a scalar and a differential to be taken of a variable. On expressions like that the
two agree (`Expr.means_ofEnv_iff`).

A reading also says what the zero element may stand for. The evaluator takes it for the scalar zero
(`Reading.ofEnv`). Where types are kept it stands for the zero of any type and products are those of
matrices (`Reading.typed`); an expression then may have several values, but two different ones are
both zero (`Expr.Means.agree`).
-/

set_option autoImplicit false

namespace TraceCalculus

variable {S : Type} [ExactScalar S]

/-- How the leaves of an expression are read. -/
structure Reading (S : Type) [ExactScalar S] where
  /-- The values of variables. -/
  var : String → Option (Value S)
  /-- The values of the differentials of variables. -/
  differential : String → Option (Value S)
  /-- The values the zero element may have. -/
  null : Value S → Prop
  null_isZero : ∀ v, null v → v.IsZero
  /-- Whether both operands of a product have to be matrices. -/
  strict : Prop

namespace Expr

/-- Whether the zero element occurs in the expression, not counting what differentials are taken
of. -/
def hasNull : Expr S → Bool
  | .null => true
  | .add a b | .sub a b | .scale a b | .matMul a b => a.hasNull || b.hasNull
  | .trace a | .transpose a => a.hasNull
  | _ => false

/-- `v` is a value of `e` under the reading `I`. -/
inductive Means (I : Reading S) : Expr S → Value S → Prop
  | var {name : String} {v : Value S} (h : I.var name = some v) : Means I (.var name) v
  | scalarVar {name : String} {x : S} (h : I.var name = some (.scalar x)) :
      Means I (.scalarVar name) (.scalar x)
  | literal (x : S) : Means I (.literal x) (.scalar x)
  | null {v : Value S} (h : I.null v) : Means I .null v
  | differential {inner : Expr S} {name : String} {v : Value S} (hn : inner.name? = some name)
      (h : I.differential name = some v) : Means I (.differential inner) v
  | add {a b : Expr S} {u v w : Value S} (ha : Means I a u) (hb : Means I b v)
      (h : Value.Sum u v w) : Means I (.add a b) w
  | sub {a b : Expr S} {u v w : Value S} (ha : Means I a u) (hb : Means I b v)
      (h : Value.Difference u v w) : Means I (.sub a b) w
  | scale {s b : Expr S} {x : S} {v : Value S} (hk : s.isScalar = true)
      (hs : Means I s (.scalar x)) (hb : Means I b v) : Means I (.scale s b) (v.scaleBy x)
  | matMul {a b : Expr S} {u v w : Value S} (ha : Means I a u) (hb : Means I b v)
      (hk : I.strict → u.isMatrix = true ∧ v.isMatrix = true) (h : u.mul v = .ok w) :
      Means I (.matMul a b) w
  | trace {a : Expr S} {v t : Value S} (ha : Means I a v) (h : v.trace = .ok t) :
      Means I (.trace a) t
  | transpose {a : Expr S} {v : Value S} (ha : Means I a v) : Means I (.transpose a) v.transpose

namespace Means

variable {I J : Reading S} {e : Expr S} {u v : Value S}

/-- A scalar has a number for its value. -/
theorem eq_scalar (h : Means I e v) (he : e.isScalar = true) : ∃ x, v = .scalar x := by
  induction h with
  | scalarVar | literal => exact ⟨_, rfl⟩
  | scale hk _ _ _ ihb =>
    obtain ⟨y, rfl⟩ := ihb (by simpa [isScalar, hk] using he)
    exact ⟨_, rfl⟩
  | _ => cases he

/-- Two values of one expression are equal, or both are zero. They are equal where the zero element
does not occur. -/
theorem agree (hu : Means I e u) (hv : Means I e v) :
    u = v ∨ u.IsZero ∧ v.IsZero ∧ e.hasNull = true := by
  induction hu generalizing v with
  | var h | scalarVar h =>
    cases hv with | _ h' => exact .inl (Option.some.inj (h.symm.trans h'))
  | literal => cases hv; exact .inl rfl
  | null h => cases hv with | null h' => exact .inr ⟨I.null_isZero _ h, I.null_isZero _ h', rfl⟩
  | differential hn h =>
    cases hv with
    | differential hn' h' =>
      obtain rfl := Option.some.inj (hn.symm.trans hn')
      exact .inl (Option.some.inj (h.symm.trans h'))
  | add _ _ h iha ihb =>
    cases hv with
    | add ha' hb' h' =>
      obtain rfl | ⟨za, za', hca⟩ := iha ha' <;> obtain rfl | ⟨zb, zb', hcb⟩ := ihb hb'
      · exact .inl (h.unique h')
      · exact .inl ((h.eq_of_isZero_right zb).trans (h'.eq_of_isZero_right zb').symm)
      · exact .inl ((h.eq_of_isZero_left za).trans (h'.eq_of_isZero_left za').symm)
      · rw [h.eq_of_isZero_right zb, h'.eq_of_isZero_right zb']
        exact .inr ⟨za, za', by simp [hasNull, hca]⟩
  | sub _ _ h iha ihb =>
    cases hv with
    | sub ha' hb' h' =>
      obtain rfl | ⟨za, za', hca⟩ := iha ha' <;> obtain rfl | ⟨zb, zb', hcb⟩ := ihb hb'
      · exact .inl (Value.Sum.unique h h')
      · exact .inl ((h.eq_of_isZero_right zb).trans (h'.eq_of_isZero_right zb').symm)
      · exact .inl ((h.eq_of_isZero_left za).trans (h'.eq_of_isZero_left za').symm)
      · rw [h.eq_of_isZero_right zb, h'.eq_of_isZero_right zb']
        exact .inr ⟨za, za', by simp [hasNull, hca]⟩
  | scale _ _ _ ihs ihb =>
    cases hv with
    | scale _ hs' hb' =>
      obtain rfl | ⟨zb, zb', hcb⟩ := ihb hb'
      · obtain heq | ⟨hx, hx', hcs⟩ := ihs hs'
        · cases heq
          exact .inl rfl
        · rw [Value.isZero_scalar] at hx hx'
          subst hx hx'
          exact .inl rfl
      · exact .inr ⟨zb.scaleBy _, zb'.scaleBy _, by simp [hasNull, hcb]⟩
  | matMul _ _ _ h iha ihb =>
    cases hv with
    | matMul ha' hb' _ h' =>
      obtain rfl | ⟨za, za', hca⟩ := iha ha'
      · obtain rfl | ⟨zb, zb', hcb⟩ := ihb hb'
        · exact .inl (Except.ok.inj (h.symm.trans h'))
        · exact .inr ⟨Value.mul_isZero_right h zb, Value.mul_isZero_right h' zb',
            by simp [hasNull, hcb]⟩
      · exact .inr ⟨Value.mul_isZero_left h za, Value.mul_isZero_left h' za',
          by simp [hasNull, hca]⟩
  | trace _ h iha =>
    cases hv with
    | trace ha' h' =>
      obtain rfl | ⟨za, za', hca⟩ := iha ha'
      · exact .inl (Except.ok.inj (h.symm.trans h'))
      · exact .inr ⟨Value.trace_isZero h za, Value.trace_isZero h' za', by simp [hasNull, hca]⟩
  | transpose _ iha =>
    cases hv with
    | transpose ha' =>
      obtain rfl | ⟨za, za', hca⟩ := iha ha'
      · exact .inl rfl
      · exact .inr ⟨za.transpose, za'.transpose, by simp [hasNull, hca]⟩

/-- Without the zero element there is one value. -/
theorem unique (hu : Means I e u) (hv : Means I e v) (he : e.hasNull = false) : u = v := by
  obtain h | ⟨-, -, h⟩ := agree hu hv
  · exact h
  · rw [he] at h
    cases h

/-- Two values of one expression that can be added are equal. -/
theorem eq_of_sum {w : Value S} (hu : Means I e u) (hv : Means I e v) (h : Value.Sum u v w) :
    u = v := by
  obtain h' | ⟨zu, zv, -⟩ := agree hu hv
  · exact h'
  · exact (h.eq_of_isZero_right zv).symm.trans (h.eq_of_isZero_left zu)

/-- The difference of two values of one expression is zero. -/
theorem isZero_of_difference {w : Value S} (hu : Means I e u) (hv : Means I e v)
    (h : Value.Difference u v w) : w.IsZero := by
  obtain rfl | ⟨zu, zv, -⟩ := agree hu hv
  · exact h.isZero
  · rw [h.eq_of_isZero_right zv]
    exact zu

/-- A value is one under any reading that has the same values for the variables and is not
stricter. Readings of the zero element matter only where it occurs. -/
theorem change (h : Means I e v) (hvar : ∀ n v, I.var n = some v → J.var n = some v)
    (hd : ∀ n v, I.differential n = some v → J.differential n = some v)
    (hnull : e.hasNull = true → ∀ v, I.null v → J.null v) (hs : J.strict → I.strict) :
    Means J e v := by
  induction h with
  | var h => exact .var (hvar _ _ h)
  | scalarVar h => exact .scalarVar (hvar _ _ h)
  | literal x => exact .literal x
  | null h => exact .null (hnull rfl _ h)
  | differential hn h => exact .differential hn (hd _ _ h)
  | add _ _ h iha ihb =>
    exact .add (iha fun hc => hnull (by simp [hasNull, hc]))
      (ihb fun hc => hnull (by simp [hasNull, hc])) h
  | sub _ _ h iha ihb =>
    exact .sub (iha fun hc => hnull (by simp [hasNull, hc]))
      (ihb fun hc => hnull (by simp [hasNull, hc])) h
  | scale hk _ _ ihs ihb =>
    exact .scale hk (ihs fun hc => hnull (by simp [hasNull, hc]))
      (ihb fun hc => hnull (by simp [hasNull, hc]))
  | matMul _ _ hk h iha ihb =>
    exact .matMul (iha fun hc => hnull (by simp [hasNull, hc]))
      (ihb fun hc => hnull (by simp [hasNull, hc])) (fun h' => hk (hs h')) h
  | trace _ h iha => exact .trace (iha fun hc => hnull (by simp [hasNull, hc])) h
  | transpose _ iha => exact .transpose (iha fun hc => hnull (by simp [hasNull, hc]))

end Means

end Expr

/-! ## The readings of an environment -/

namespace Reading

/-- The reading of the evaluator: the zero element is the scalar zero. -/
def ofEnv (env : Environment S) : Reading S where
  var := env.get?
  differential name := env.get? (Expr.differentialIn name : Expr S).text
  null v := v = .scalar 0
  null_isZero := by rintro _ rfl; rfl
  strict := False

/-- The reading that keeps types: the zero element is the zero of any type, and the operands of a
product are matrices. -/
def typed (env : Environment S) : Reading S where
  var := env.get?
  differential name := env.get? (Expr.differentialIn name : Expr S).text
  null := Value.IsZero
  null_isZero _ h := h
  strict := True

end Reading

omit [ExactScalar S] in
theorem Environment.lookup_eq_ok {env : Environment S} {name : String} {v : Value S} :
    env.lookup name = .ok v ↔ env.get? name = some v := by
  unfold lookup
  split <;> simp_all

namespace Expr

variable {env : Environment S} {e : Expr S} {v : Value S}

/-- The expression is read alike by the evaluator and by `Means`: differentials are taken of
variables, scalar variables have numbers for their values, factors are scalars, and no sum or
difference joins a scalar with a matrix. -/
def Regular (env : Environment S) : Expr S → Prop
  | .var _ | .literal _ | .null => True
  | .scalarVar name => ∀ v, env.get? name = some v → v.isMatrix = false
  | .differential inner => inner.name?.isSome = true
  | .add a b | .sub a b =>
    a.Regular env ∧ b.Regular env ∧
      ∀ u v, a.eval env = .ok u → b.eval env = .ok v → u.isMatrix = v.isMatrix
  | .scale s b => s.isScalar = true ∧ s.Regular env ∧ b.Regular env
  | .matMul a b => a.Regular env ∧ b.Regular env
  | .trace a | .transpose a => a.Regular env

omit [ExactScalar S] in
theorem text_differential [Scalar S] {inner : Expr S} {name : String}
    (h : inner.name? = some name) :
    (differential inner).text = (differentialIn name : Expr S).text := by
  cases inner <;> cases h <;> rfl

theorem text_differentialIn_ne (T : Type) [Scalar T] (wrt : String) :
    (differentialIn wrt : Expr T).text ≠ wrt := by
  intro h
  have hlength := congrArg String.length h
  change ("d(" ++ wrt ++ ")").length = wrt.length at hlength
  rw [String.length_append, String.length_append] at hlength
  have hopen : "d(".length = 2 := rfl
  omega

theorem evalDifferential_value (hm : env.mode = .value) {inner : Expr S} {name : String}
    (h : inner.name? = some name) :
    evalDifferential env inner = env.lookup (differentialIn name : Expr S).text := by
  unfold evalDifferential
  rw [hm, text_differential h]

theorem bind_eq_ok {ε α β : Type} {x : Except ε α} {f : α → Except ε β} {b : β}
    (h : (x >>= f) = .ok b) : ∃ a, x = .ok a ∧ f a = .ok b := by
  cases x with
  | error => cases h
  | ok a => exact ⟨a, rfl, h⟩

theorem bind_ok_iff {ε α β : Type} {x : Except ε α} {f : α → Except ε β} {b : β} :
    (x >>= f) = .ok b ↔ ∃ a, x = .ok a ∧ f a = .ok b := by
  refine ⟨bind_eq_ok, ?_⟩
  rintro ⟨a, rfl, h⟩
  exact h

theorem bind_bind_ok_iff {ε α β γ : Type} {x : Except ε α} {y : Except ε β}
    {f : α → β → Except ε γ} {c : γ} :
    (x >>= fun a => y >>= f a) = .ok c ↔ ∃ a b, x = .ok a ∧ y = .ok b ∧ f a b = .ok c := by
  simp only [bind_ok_iff, exists_and_left]

theorem eval_add_ok {a b : Expr S} {w : Value S} : (add a b).eval env = .ok w ↔
    ∃ u v, a.eval env = .ok u ∧ b.eval env = .ok v ∧ u.add v = .ok w :=
  bind_bind_ok_iff

theorem eval_sub_ok {a b : Expr S} {w : Value S} : (sub a b).eval env = .ok w ↔
    ∃ u v, a.eval env = .ok u ∧ b.eval env = .ok v ∧ u.sub v = .ok w :=
  bind_bind_ok_iff

theorem eval_matMul_ok {a b : Expr S} {w : Value S} : (matMul a b).eval env = .ok w ↔
    ∃ u v, a.eval env = .ok u ∧ b.eval env = .ok v ∧ u.mul v = .ok w :=
  bind_bind_ok_iff

theorem eval_scale_ok {a b : Expr S} {w : Value S} : (scale a b).eval env = .ok w ↔
    ∃ u v, a.eval env = .ok u ∧ b.eval env = .ok v ∧ u.mul v = .ok w :=
  bind_bind_ok_iff

theorem eval_trace_ok (hm : env.mode = .value) {a : Expr S} {w : Value S} :
    (trace a).eval env = .ok w ↔ ∃ v, a.eval env = .ok v ∧ v.trace = .ok w := by
  refine bind_ok_iff.trans ?_
  rw [hm]

theorem eval_transpose_ok {a : Expr S} {w : Value S} :
    (transpose a).eval env = .ok w ↔ ∃ v, a.eval env = .ok v ∧ w = v.transpose := by
  refine bind_ok_iff.trans ?_
  simp only [pure, Except.pure, Except.ok.injEq, eq_comm]

theorem Means.eval_eq (hm : env.mode = .value) (h : Means (.ofEnv env) e v) :
    e.eval env = .ok v := by
  induction h with
  | var h | scalarVar h => exact Environment.lookup_eq_ok.2 h
  | literal => rfl
  | null h => rw [h]; rfl
  | differential hn h =>
    exact (evalDifferential_value hm hn).trans (Environment.lookup_eq_ok.2 h)
  | add _ _ h iha ihb => exact eval_add_ok.2 ⟨_, _, iha, ihb, h.add_eq⟩
  | sub _ _ h iha ihb => exact eval_sub_ok.2 ⟨_, _, iha, ihb, h.sub_eq⟩
  | scale _ _ _ ihs ihb => exact eval_scale_ok.2 ⟨_, _, ihs, ihb, Value.scalar_mul _ _⟩
  | matMul _ _ _ h iha ihb => exact eval_matMul_ok.2 ⟨_, _, iha, ihb, h⟩
  | trace _ h iha => exact (eval_trace_ok hm).2 ⟨_, iha, h⟩
  | transpose _ iha => exact eval_transpose_ok.2 ⟨_, iha, rfl⟩

theorem Means.regular (hm : env.mode = .value) (h : Means (.ofEnv env) e v) : e.Regular env := by
  induction h with
  | var | literal | null => trivial
  | scalarVar h =>
    intro v hv
    obtain rfl := Option.some.inj (h.symm.trans hv)
    rfl
  | differential hn _ => simp [Regular, hn]
  | add ha hb h iha ihb =>
    refine ⟨iha, ihb, fun u' v' hu hv => ?_⟩
    rw [ha.eval_eq hm, Except.ok.injEq] at hu
    rw [hb.eval_eq hm, Except.ok.injEq] at hv
    subst hu hv
    exact (Value.sum_iff.1 h).1
  | sub ha hb h iha ihb =>
    refine ⟨iha, ihb, fun u' v' hu hv => ?_⟩
    rw [ha.eval_eq hm, Except.ok.injEq] at hu
    rw [hb.eval_eq hm, Except.ok.injEq] at hv
    subst hu hv
    exact (Value.difference_iff.1 h).1
  | scale hk _ _ ihs ihb => exact ⟨hk, ihs, ihb⟩
  | matMul _ _ _ _ iha ihb => exact ⟨iha, ihb⟩
  | trace _ _ iha => exact iha
  | transpose _ iha => exact iha

theorem means_of_eval (hm : env.mode = .value) (hr : e.Regular env) (h : e.eval env = .ok v) :
    Means (.ofEnv env) e v := by
  induction e generalizing v with
  | var name => exact .var (Environment.lookup_eq_ok.1 h)
  | scalarVar name =>
    have hv := Environment.lookup_eq_ok.1 h
    have hk := hr v hv
    cases v with
    | scalar x => exact .scalarVar hv
    | matrix m => cases hk
  | literal x => cases h; exact .literal x
  | null => cases h; exact .null rfl
  | differential inner _ =>
    obtain ⟨name, hn⟩ := Option.isSome_iff_exists.1 hr
    have h' := (evalDifferential_value hm hn).symm.trans h
    exact .differential hn (Environment.lookup_eq_ok.1 h')
  | add a b iha ihb =>
    obtain ⟨ra, rb, hk⟩ := hr
    obtain ⟨u, w, ha, hb, hw⟩ := eval_add_ok.1 h
    exact .add (iha ra ha) (ihb rb hb) (Value.sum_iff.2 ⟨hk u w ha hb, hw⟩)
  | sub a b iha ihb =>
    obtain ⟨ra, rb, hk⟩ := hr
    obtain ⟨u, w, ha, hb, hw⟩ := eval_sub_ok.1 h
    exact .sub (iha ra ha) (ihb rb hb) (Value.difference_iff.2 ⟨hk u w ha hb, hw⟩)
  | scale s b ihs ihb =>
    obtain ⟨hk, rs, rb⟩ := hr
    obtain ⟨u, w, hs, hb, hw⟩ := eval_scale_ok.1 h
    obtain ⟨x, rfl⟩ := (ihs rs hs).eq_scalar hk
    rw [Value.scalar_mul, Except.ok.injEq] at hw
    subst hw
    exact .scale hk (ihs rs hs) (ihb rb hb)
  | matMul a b iha ihb =>
    obtain ⟨u, w, ha, hb, hw⟩ := eval_matMul_ok.1 h
    exact .matMul (iha hr.1 ha) (ihb hr.2 hb) False.elim hw
  | trace a iha =>
    obtain ⟨w, ha, hw⟩ := (eval_trace_ok hm).1 h
    exact .trace (iha hr ha) hw
  | transpose a iha =>
    obtain ⟨w, ha, rfl⟩ := eval_transpose_ok.1 h
    exact .transpose (iha hr ha)

/-- On regular expressions the evaluator gives the value that is meant. -/
theorem means_ofEnv_iff (hm : env.mode = .value) :
    Means (.ofEnv env) e v ↔ e.Regular env ∧ e.eval env = .ok v :=
  ⟨fun h => ⟨h.regular hm, h.eval_eq hm⟩, fun ⟨hr, h⟩ => means_of_eval hm hr h⟩

/-- Without the zero element a value that keeps types is the one of the evaluator. -/
theorem Means.ofEnv_of_typed (h : Means (.typed env) e v) (he : e.hasNull = false) :
    Means (.ofEnv env) e v := by
  refine h.change (fun _ _ h => h) (fun _ _ h => h) (fun hc => ?_) fun h => h.elim
  rw [he] at hc
  cases hc

end Expr

end TraceCalculus
