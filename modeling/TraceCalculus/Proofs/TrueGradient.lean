import TraceCalculus.Proofs.Isolation
import TraceCalculus.Proofs.RunValue
import TraceCalculus.Proofs.TraceFunction
import TraceCalculus.Value.Gradient

/-! # The gradient is the true one

In gradient mode a readable form evaluates to a matrix `G`, and with `H` for the differential of the
variable the form is worth the trace of `G*H` (`Expr.Represents`). This holds of `Tr(d(X))`, where
`G` is an identity matrix, and of `Tr(N*d(X))`, where it is `N`, and it is kept by sums, differences
and scalar multiples. It is right only because the differential is the last factor in every trace:
in gradient mode a trace is passed through.

Canonicalization keeps the value along every direction, so what is read off the canonical form of a
differential is the gradient of the function (`Expr.gradient_eq`).
-/

set_option autoImplicit false

namespace TraceCalculus

open Matrix TrivSqZeroExt

variable {S : Type} [ExactScalar S]

/-- The reading of an environment that keeps types, with a direction for the differential of `X`.
No other differential has a value. -/
def Reading.along (env : Environment S) (X : String) (H : Value S) : Reading S where
  var := env.get?
  differential name := if name = X then some H else none
  null := Value.IsZero
  null_isZero _ h := h
  strict := True

theorem Reading.moves_along {env : Environment S} {X : String} {V : Value (DualNumber S)}
    (hp : env.get? X = some V.re) : (along env X V.eps).Moves X V (.typed (env.moving X V)) where
  point := hp
  direction := if_pos rfl
  moving := Environment.get?_set_self _ _ _
  still name v hne h := by
    refine (Environment.get?_set_of_ne _ V hne).trans ?_
    rw [Environment.get?_still, show env.get? name = some v from h]
    rfl
  null v h := by
    obtain ⟨x, rfl⟩ | ⟨m, n, M, rfl⟩ := v.exists_eq
    · exact (congrArg inl h).trans (inl_zero S)
    · rw [show M = 0 from Value.isZero_ofMatrix M |>.1 h, Value.still_ofMatrix]
      refine (Value.isZero_ofMatrix _).2 ?_
      ext i j
      · rfl
      · rfl
  strict _ := trivial

namespace Expr

variable {env : Environment S} {X : String} {m n : Nat} {x : Matrix (Fin m) (Fin n) S}

/-! ## Factors without traces and differentials -/

/-- There is no trace and no differential, and no zero element. -/
def Still : Expr S → Prop
  | .var _ | .scalarVar _ | .literal _ => True
  | .null | .differential _ | .trace _ => False
  | .add a b | .sub a b | .scale a b | .matMul a b => a.Still ∧ b.Still
  | .transpose a => a.Still

omit [ExactScalar S] in
theorem still_of_isScalar {k : Expr S} (h : k.isScalar = true) : k.Still := by
  induction k with
  | scalarVar | literal => trivial
  | scale a b iha ihb =>
    simp only [isScalar, Bool.and_eq_true] at h
    exact ⟨iha h.1, ihb h.2⟩
  | _ => cases h

omit [ExactScalar S] in
theorem Plain.still {e : Expr S} (h : e.Plain) : e.Still := by
  induction e with
  | var => trivial
  | add a b iha ihb | sub a b iha ihb | matMul a b iha ihb => exact ⟨iha h.1, ihb h.2⟩
  | scale k b _ ihb => exact ⟨still_of_isScalar h.1, ihb h.2⟩
  | transpose a ih => exact ih h
  | _ => cases h

/-- They are evaluated alike in every mode. -/
theorem Still.eval_withMode {e : Expr S} (h : e.Still) (mode : Environment.Mode) :
    e.eval (env.withMode mode) = e.eval env := by
  induction e with
  | var | scalarVar | literal => rfl
  | null | differential | trace => cases h
  | add a b iha ihb | sub a b iha ihb | scale a b iha ihb | matMul a b iha ihb =>
    rw [eval, eval, iha h.1, ihb h.2]
  | transpose a ih => rw [eval, eval, ih h]

/-- Their values do not depend on how differentials and the zero element are read. -/
theorem Means.of_still {I J : Reading S} {e : Expr S} {v : Value S} (h : Means I e v) (he : e.Still)
    (hvar : I.var = J.var) (hs : J.strict → I.strict) : Means J e v := by
  induction h with
  | var h => exact .var (hvar ▸ h)
  | scalarVar h => exact .scalarVar (hvar ▸ h)
  | literal => exact .literal _
  | null | differential | trace => cases he
  | add _ _ h iha ihb => exact .add (iha he.1) (ihb he.2) h
  | sub _ _ h iha ihb => exact .sub (iha he.1) (ihb he.2) h
  | scale hk _ _ ihs ihb => exact .scale hk (ihs he.1) (ihb he.2)
  | matMul _ _ hk h iha ihb => exact .matMul (iha he.1) (ihb he.2) (fun h' => hk (hs h')) h
  | transpose _ iha => exact .transpose (iha he)

theorem Means.eval_gradient (hm : env.mode = .value) {V : Value S} {e : Expr S} {v : Value S}
    (h : Means (.along env X V) e v) (he : e.Still) :
    e.eval (env.withMode (.gradient X)) = .ok v := by
  rw [he.eval_withMode, (h.of_still (J := .ofEnv env) he rfl False.elim).eval_eq hm]

/-! ## What a form is worth along a direction -/

/-- In gradient mode the expression evaluates to `G`, and along a direction `H` of `X` it has the
value `f H`. -/
structure Worth (env : Environment S) (X : String) (G : Matrix (Fin n) (Fin m) S)
    (f : Matrix (Fin m) (Fin n) S → Value S) (c : Expr S) : Prop where
  eval : c.eval (env.withMode (.gradient X)) = .ok (.ofMatrix G)
  means : ∀ H, Means (.along env X (.ofMatrix H)) c (f H)

/-- The expression is read as `G` in gradient mode, and that is right. -/
def Represents (env : Environment S) (X : String) (G : Matrix (Fin n) (Fin m) S) (c : Expr S) :
    Prop :=
  c.Worth env X G fun H => .scalar (G * H).trace

variable {G G' : Matrix (Fin n) (Fin m) S} {f : Matrix (Fin m) (Fin n) S → Value S} {a b k : Expr S}

theorem Worth.congr {g : Matrix (Fin m) (Fin n) S → Value S} (h : a.Worth env X G f)
    (hfg : ∀ H, f H = g H) : a.Worth env X G g :=
  ⟨h.eval, fun H => hfg H ▸ h.means H⟩

theorem Worth.scale (hm : env.mode = .value) {V : Value S} {s : S} (hk : k.isScalar = true)
    (hs : Means (.along env X V) k (.scalar s)) (hb : b.Worth env X G f) :
    (scale k b).Worth env X (s • G) fun H => (f H).scaleBy s where
  eval := by
    refine eval_scale_ok.2 ⟨_, _, hs.eval_gradient hm (still_of_isScalar hk), hb.eval, ?_⟩
    rw [Value.scalar_mul, Value.scaleBy_ofMatrix]
  means H :=
    .scale hk (hs.of_still (J := .along env X (.ofMatrix H)) (still_of_isScalar hk) rfl id)
      (hb.means H)

theorem Represents.add (ha : a.Represents env X G) (hb : b.Represents env X G') :
    (add a b).Represents env X (G + G') where
  eval := eval_add_ok.2 ⟨_, _, ha.eval, hb.eval, Value.ofMatrix_add G G'⟩
  means H := by
    rw [Matrix.add_mul, Matrix.trace_add]
    exact .add (ha.means H) (hb.means H) (.scalar _ _)

theorem Represents.sub (ha : a.Represents env X G) (hb : b.Represents env X G') :
    (sub a b).Represents env X (G - G') where
  eval := eval_sub_ok.2 ⟨_, _, ha.eval, hb.eval, Value.ofMatrix_sub G G'⟩
  means H := by
    rw [Matrix.sub_mul, Matrix.trace_sub]
    exact .sub (ha.means H) (hb.means H) (Value.difference_iff.2 ⟨rfl, rfl⟩)

theorem Represents.scale (hm : env.mode = .value) {V : Value S} {s : S} (hk : k.isScalar = true)
    (hs : Means (.along env X V) k (.scalar s)) (hb : b.Represents env X G) :
    (scale k b).Represents env X (s • G) := by
  refine (Worth.scale hm hk hs hb).congr fun H => ?_
  rw [Value.scaleBy_scalar, Matrix.smul_mul, Matrix.trace_smul, smul_eq_mul]

/-- In gradient mode a trace is its operand. -/
theorem represents_trace (h : a.Worth env X G fun H => .ofMatrix (G * H)) :
    (trace a).Represents env X G where
  eval := by
    rw [Expr.eval, h.eval]
    rfl
  means H := .trace (h.means H) (Value.trace_ofMatrix _)

/-- In gradient mode the differential is an identity matrix. -/
theorem eval_differential_gradient (hX : env.get? X = some (.ofMatrix x)) {inner : Expr S}
    (hn : inner.name? = some X) :
    (differential inner).eval (env.withMode (.gradient X)) =
      .ok (.ofMatrix (1 : Matrix (Fin m) (Fin m) S)) := by
  have hl : (env.withMode (.gradient X)).lookup X = .ok (.ofMatrix x) :=
    Environment.lookup_eq_ok.2 hX
  simp only [Expr.eval, evalDifferential, hn, Environment.withMode, if_true] at hl ⊢
  rw [hl]
  exact congrArg (fun g => Except.ok (Value.matrix g)) (Grid.identity_eq m)

theorem worth_differential {x : Matrix (Fin n) (Fin n) S} (hX : env.get? X = some (.ofMatrix x)) :
    (differential (.var X)).Worth env X 1 fun H : Matrix (Fin n) (Fin n) S =>
      .ofMatrix (1 * H) where
  eval := eval_differential_gradient hX rfl
  means H := by
    rw [Matrix.one_mul]
    exact .differential rfl (if_pos rfl)

theorem worth_matMul (hX : env.get? X = some (.ofMatrix x)) (hm : env.mode = .value)
    {V : Value S} (ha : a.Plain) (hG : Means (.along env X V) a (.ofMatrix G)) :
    (matMul a (differential (.var X))).Worth env X G fun H => .ofMatrix (G * H) where
  eval := by
    refine eval_matMul_ok.2
      ⟨_, _, hG.eval_gradient hm ha.still, eval_differential_gradient hX rfl, ?_⟩
    rw [Value.ofMatrix_mul, Matrix.mul_one]
  means H :=
    .matMul (hG.of_still (J := .along env X (.ofMatrix H)) ha.still rfl id)
      (.differential rfl (if_pos rfl)) (fun _ => ⟨rfl, rfl⟩) (Value.ofMatrix_mul G H)

theorem eq_of_means_differential {H v : Value S}
    (h : Means (.along env X H) (differential (.var X)) v) : v = H := by
  cases h with
  | differential hn hd =>
    obtain rfl := Option.some.inj hn
    exact (Option.some.inj ((if_pos rfl).symm.trans hd)).symm

/-- The operand of a trace in a readable form that is worth something along one direction. -/
theorem Core.exists_worth (hX : env.get? X = some (.ofMatrix x)) (hm : env.mode = .value)
    {H₀ : Matrix (Fin m) (Fin n) S} {v t : Value S} (ha : a.Core X)
    (h : Means (.along env X (.ofMatrix H₀)) a v) (ht : v.trace = .ok t) :
    ∃ G : Matrix (Fin n) (Fin m) S, a.Worth env X G fun H => .ofMatrix (G * H) := by
  cases h with
  | differential hn hd =>
    obtain rfl : _ = var X := ha.resolve_right id
    obtain rfl := eq_of_means_differential (.differential hn hd)
    rcases Value.trace_cases ht with ⟨y, hy, -⟩ | ⟨k, M, hM, -⟩
    · exact absurd hy.symm (Value.scalar_ne_ofMatrix _ _)
    · obtain ⟨rfl, rfl⟩ := Value.ofMatrix_eq hM
      exact ⟨1, worth_differential hX⟩
  | @matMul g d u w p hg hd hk hp =>
    obtain ⟨hplain, -, rfl⟩ := Core.plain_or_eq ha
    obtain rfl := eq_of_means_differential hd
    rcases Value.mul_cases hp with ⟨y, rfl, -⟩ | ⟨y, hy, -⟩ | ⟨k, l, n', G, M, rfl, hM, rfl⟩
    · cases (hk trivial).1
    · exact absurd hy.symm (Value.scalar_ne_ofMatrix _ _)
    · obtain ⟨rfl, rfl⟩ := Value.ofMatrix_eq hM
      rcases Value.trace_cases ht with ⟨y, hy, -⟩ | ⟨k', N, hN, -⟩
      · exact absurd hy.symm (Value.scalar_ne_ofMatrix _ _)
      · obtain ⟨rfl, rfl⟩ := Value.ofMatrix_eq hN
        exact ⟨G, worth_matMul hX hm hplain hg⟩
  | _ => rcases ha with ha | ha <;> cases ha

theorem Core.exists_worth_multiple (hX : env.get? X = some (.ofMatrix x)) (hm : env.mode = .value)
    {H₀ : Matrix (Fin m) (Fin n) S} {v t : Value S} (ha : a.Multiple (Core X))
    (h : Means (.along env X (.ofMatrix H₀)) a v) (ht : v.trace = .ok t) :
    ∃ G : Matrix (Fin n) (Fin m) S, a.Worth env X G fun H => .ofMatrix (G * H) := by
  cases a with
  | scale k b =>
    cases h with
    | @scale k b s v hk hs hb =>
      obtain ⟨r, hr, -⟩ := Value.trace_of_scaleBy ht
      obtain ⟨G, hG⟩ := Core.exists_worth hX hm ha.2 hb hr
      refine ⟨s • G, (hG.scale hm hk hs).congr fun H => ?_⟩
      rw [Value.scaleBy_ofMatrix, Matrix.smul_mul]
  | _ => exact Core.exists_worth hX hm ha h ht

/-- A readable form that is worth something along one direction represents a matrix. -/
theorem Readable.exists_represents (hX : env.get? X = some (.ofMatrix x)) (hm : env.mode = .value)
    {H₀ : Matrix (Fin m) (Fin n) S} {c : Expr S} {v : Value S} (hc : c.Readable X)
    (h : Means (.along env X (.ofMatrix H₀)) c v) :
    ∃ G : Matrix (Fin n) (Fin m) S, c.Represents env X G := by
  induction h with
  | add _ _ _ iha ihb =>
    obtain ⟨G, hG⟩ := iha hc.1
    obtain ⟨G', hG'⟩ := ihb hc.2
    exact ⟨G + G', hG.add hG'⟩
  | sub _ _ _ iha ihb =>
    obtain ⟨G, hG⟩ := iha hc.1
    obtain ⟨G', hG'⟩ := ihb hc.2
    exact ⟨G - G', hG.sub hG'⟩
  | scale hk hs _ _ ihb =>
    obtain ⟨G, hG⟩ := ihb hc.2
    exact ⟨_, hG.scale hm hk hs⟩
  | trace ha ht =>
    obtain ⟨G, hG⟩ := Core.exists_worth_multiple hX hm hc ha ht
    exact ⟨G, represents_trace hG⟩
  | _ => cases hc

/-- The gradient that is read off has the shape of the variable. -/
theorem Represents.gradient_ofMatrix (hX : env.get? X = some (.ofMatrix x)) {c : Expr S}
    (h : c.Represents env X G) : c.gradient X env = .ok (.ofMatrix Gᵀ) := by
  unfold gradient
  simp only [hX, h.eval]
  exact congrArg Except.ok (Grid.transpose_ofMatrix G)

theorem gradient_null (hX : env.get? X = some (.ofMatrix x)) :
    (null : Expr S).gradient X env = .ok (.ofMatrix (0 : Matrix (Fin m) (Fin n) S)) := by
  unfold gradient
  rw [hX]
  rfl

/-! ## The gradient of a trace function -/

omit [ExactScalar S] in
theorem hasNull_mapLiterals {T : Type} (f : Nat → S → T) (e : Expr S) (start : Nat) :
    (e.mapLiterals f start).hasNull = e.hasNull := by
  induction e generalizing start with
  | add a b iha ihb | sub a b iha ihb | scale a b iha ihb | matMul a b iha ihb =>
    rw [mapLiterals, hasNull, hasNull, iha, ihb]
  | trace a ih | transpose a ih => rw [mapLiterals, hasNull, hasNull, ih]
  | _ => rfl

/-- The value of a trace function moves in the direction that its differential stands for. -/
theorem exists_direction (hm : env.mode = .value) {V : Value (DualNumber S)}
    (hX : env.get? X = some V.re) (hV : V.isMatrix = true) {f : Expr S} {v : Value S}
    (hf : OrNull TraceFunction f) (hb : f.WellBound env) (h : f.eval env = .ok v) :
    ∃ y : DualNumber S, f.overDual.eval (env.moving X V) = .ok (.scalar y) ∧
      Means (.along env X V.eps) (f.differentiate X) (.scalar y.snd) := by
  rcases hf with rfl | hf
  · exact ⟨0, rfl, .null rfl⟩
  obtain ⟨hv, hmeans⟩ := hf.means (I := .along env X V.eps) hm rfl hb h
  have hd := hf.differentiable hX ((Value.isMatrix_re V).trans hV) hb
  obtain ⟨W, hW, rfl, hdW⟩ := hmeans.perturb (Reading.moves_along hX) hd
  cases W with
  | matrix => cases hv
  | scalar y =>
    have hn : f.overDual.hasNull = false := (hasNull_mapLiterals _ f 0).trans hf.hasNull_eq
    exact ⟨y, (hW.ofEnv_of_typed hn).eval_eq hm, hdW.means_of_null fun _ h => h⟩

/-- The sum of the products of the entries is a trace. -/
theorem sum_mul_eq_trace (G : Matrix (Fin n) (Fin m) S) (H : Matrix (Fin m) (Fin n) S) :
    ∑ i, ∑ j, Gᵀ i j * H i j = (G * H).trace := by
  rw [Finset.sum_comm]
  rfl

/-- What is read off the canonical form of the differential of a trace function is the gradient: it
has the shape of the variable, and the product with any direction is the rate at which the function
changes in that direction. -/
theorem gradient_eq {f c : Expr S} {v : Value S} {fuel : Nat} (hm : env.mode = .value)
    (hX : env.get? X = some (.ofMatrix x)) (hf : OrNull TraceFunction f) (hb : f.WellBound env)
    (he : f.eval env = .ok v) (hc : (f.differentiate X).canonicalize? fuel = some c) :
    ∃ G : Matrix (Fin m) (Fin n) S, c.gradient X env = .ok (.ofMatrix G) ∧
      ∀ H : Matrix (Fin m) (Fin n) S, ∃ y : DualNumber S,
        f.overDual.eval (env.moving X (.ofMatrix (x.map inl + H.map inr))) = .ok (.scalar y) ∧
          ∑ i, ∑ j, G i j * H i j = y.snd := by
  have key : ∀ H : Matrix (Fin m) (Fin n) S, ∃ y : DualNumber S,
      f.overDual.eval (env.moving X (.ofMatrix (x.map inl + H.map inr))) = .ok (.scalar y) ∧
        c.Tidy ∧ Means (.along env X (.ofMatrix H)) c (.scalar y.snd) := by
    intro H
    have hre : (Value.ofMatrix (x.map inl + H.map inr)).re = .ofMatrix x := by
      rw [Value.re_ofMatrix, Value.ofMatrix_inj]
      ext i j
      simp
    have heps : (Value.ofMatrix (x.map inl + H.map inr)).eps = .ofMatrix H := by
      rw [Value.eps_ofMatrix, Value.ofMatrix_inj]
      ext i j
      simp
    obtain ⟨y, hy, hdir⟩ := exists_direction hm (hre ▸ hX) rfl hf hb he
    rw [heps] at hdir
    have hk : Canonical.Keeps (.along env X (.ofMatrix H)) (f.differentiate X) c :=
      Canonical.Respected.run (Canonical.respected_keeps trivial fun _ h => h) trivial hc
    exact ⟨y, hy, hk.tidy, hk.means _ hdir⟩
  rcases readable_of_canonicalize (differentiate_of_orNull hf) hc with rfl | hr
  · -- the differential vanishes along every direction
    refine ⟨0, gradient_null hX, fun H => ?_⟩
    obtain ⟨y, hy, -, hz⟩ := key H
    refine ⟨y, hy, ?_⟩
    cases hz with
    | null h =>
      rw [show y.snd = 0 from h]
      simp
  · -- any direction shows that the form is worth something
    obtain ⟨_, -, -, hz⟩ := key 0
    obtain ⟨G, hG⟩ := hr.exists_represents hX hm hz
    refine ⟨Gᵀ, hG.gradient_ofMatrix hX, fun H => ?_⟩
    obtain ⟨y, hy, htidy, hdir⟩ := key H
    refine ⟨y, hy, ?_⟩
    have hn : c.hasNull = false := htidy.resolve_left (by rintro rfl; cases hr)
    rw [sum_mul_eq_trace]
    exact Value.scalar.inj ((hG.means H).unique hdir hn)

/-- Values for a matrix that is not square and for a factor. -/
def samplePoint : Environment Int where
  values := [("X", .ofMatrix !![1, 2, 3; 4, 5, 6]), ("A", .ofMatrix !![1, 0; 2, 1; 0, 3])]

/-- The function `2*Tr(X'*X)+Tr(A*X)`. -/
def sampleFunction : Expr Int :=
  .add (.scale (.literal 2) (.trace (.matMul (.transpose (.var "X")) (.var "X"))))
    (.trace (.matMul (.var "A") (.var "X")))

theorem gradient_eq_quadratic :
    ∃ c, (sampleFunction.differentiate "X").canonicalize? 12 = some c ∧
      ∃ G : Matrix (Fin 2) (Fin 3) Int, c.gradient "X" samplePoint = .ok (.ofMatrix G) ∧
        ∀ H : Matrix (Fin 2) (Fin 3) Int, ∃ y : DualNumber Int,
          sampleFunction.overDual.eval (samplePoint.moving "X"
            (.ofMatrix (!![1, 2, 3; 4, 5, 6].map inl + H.map inr))) = .ok (.scalar y) ∧
          ∑ i, ∑ j, G i j * H i j = y.snd := by
  have hf : sampleFunction.TraceFunction := ⟨⟨rfl, trivial, trivial⟩, trivial, trivial⟩
  have hmatrix : ∀ name v, samplePoint.get? name = some v → v.isMatrix = true := by
    intro name v hv
    simp only [Environment.get?, samplePoint, List.lookup_cons, List.lookup_nil] at hv
    split at hv
    · exact Option.some.inj hv ▸ rfl
    · split at hv
      · exact Option.some.inj hv ▸ rfl
      · cases hv
  have hb : sampleFunction.WellBound samplePoint :=
    ⟨⟨trivial, hmatrix "X", hmatrix "X"⟩, hmatrix "A", hmatrix "X"⟩
  have hc : ((sampleFunction.differentiate "X").canonicalize? 12).isSome = true := by
    decide +kernel
  obtain ⟨c, hc⟩ := Option.isSome_iff_exists.1 hc
  exact ⟨c, hc, gradient_eq rfl rfl (.inr hf) hb rfl hc⟩

end Expr

end TraceCalculus
