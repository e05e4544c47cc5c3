import TraceCalculus.Proofs.TrueGradient
import TraceCalculus.Canonical.Form

/-! # The gradient of a canonical form

In gradient mode a canonical form evaluates to a matrix `G`, or to the number zero in its place, and
with `H` for the differential it is worth the trace of `G*H` (`Expr.readsOff_of_isCanonical`). This
asks that no trace stands inside another: in gradient mode that one is passed through as well, and
the factor before the differential is not what it is otherwise (`Expr.gradient_innerTrace`). It also
takes a direction along which the form has a value at all; without one the gradient need not have the
shape of the variable (`Expr.gradient_shape`).

The factor may have any shape, and a scalar may be joined with a matrix inside it.
-/

set_option autoImplicit false

namespace TraceCalculus

open Matrix

variable {S : Type} [ExactScalar S]

/-! ## Values in place of a matrix -/

/-- The value is the matrix, or it is the number zero in place of a zero matrix. -/
def Value.Fills {m n : Nat} (v : Value S) (G : Matrix (Fin m) (Fin n) S) : Prop :=
  v = .ofMatrix G ∨ v = .scalar 0 ∧ G = 0

namespace Value.Fills

variable {m n : Nat} {u v : Value S} {F G : Matrix (Fin m) (Fin n) S}

theorem add (hu : u.Fills F) (hv : v.Fills G) : ∃ w, u.add v = .ok w ∧ w.Fills (F + G) := by
  rcases hu with rfl | ⟨rfl, rfl⟩ <;> rcases hv with rfl | ⟨rfl, rfl⟩
  · exact ⟨_, Value.ofMatrix_add F G, .inl rfl⟩
  · refine ⟨.ofMatrix F, ?_, .inl (by rw [add_zero])⟩
    simp only [Value.add, elementwise, Value.ofMatrix, Grid.map_ofMatrix]
    exact congrArg Except.ok (Value.ofMatrix_inj.2 (by ext; simp))
  · refine ⟨.ofMatrix G, ?_, .inl (by rw [zero_add])⟩
    simp only [Value.add, elementwise, Value.ofMatrix, Grid.map_ofMatrix]
    exact congrArg Except.ok (Value.ofMatrix_inj.2 (by ext; simp))
  · exact ⟨.scalar (0 + 0), rfl, .inr ⟨by rw [add_zero], add_zero 0⟩⟩

theorem sub (hu : u.Fills F) (hv : v.Fills G) : ∃ w, u.sub v = .ok w ∧ w.Fills (F - G) := by
  rcases hu with rfl | ⟨rfl, rfl⟩ <;> rcases hv with rfl | ⟨rfl, rfl⟩
  · exact ⟨_, Value.ofMatrix_sub F G, .inl rfl⟩
  · refine ⟨.ofMatrix F, ?_, .inl (by rw [sub_zero])⟩
    simp only [Value.sub, elementwise, Value.ofMatrix, Grid.map_ofMatrix]
    exact congrArg Except.ok (Value.ofMatrix_inj.2 (by ext; simp))
  · refine ⟨.ofMatrix (-G), ?_, .inl (by rw [zero_sub])⟩
    simp only [Value.sub, elementwise, Value.ofMatrix, Grid.map_ofMatrix]
    exact congrArg Except.ok (Value.ofMatrix_inj.2 (by ext; simp))
  · exact ⟨.scalar (0 - 0), rfl, .inr ⟨by rw [sub_zero], sub_zero 0⟩⟩

theorem scaleBy (hv : v.Fills G) (x : S) : (v.scaleBy x).Fills (x • G) := by
  rcases hv with rfl | ⟨rfl, rfl⟩
  · exact .inl (by simp)
  · exact .inr ⟨by simp, by simp⟩

end Value.Fills

namespace Expr

variable {env : Environment S} {X : String} {m n : Nat} {x : Matrix (Fin m) (Fin n) S}

/-! ## Expressions that are read alike in every mode -/

theorem eval_withMode {e : Expr S} (hd : e.hasDifferential = false)
    (ht : e.contains .trace = false) (mode : Environment.Mode) :
    e.eval (env.withMode mode) = e.eval env := by
  induction e with
  | var | scalarVar | literal | null => rfl
  | differential | trace => simp [contains] at hd ht
  | add a b iha ihb | sub a b iha ihb | scale a b iha ihb | matMul a b iha ihb =>
    simp only [contains, Bool.or_eq_false_iff] at hd ht
    rw [eval, eval, iha hd.1.2 ht.1.2, ihb hd.2 ht.2]
  | transpose a ih =>
    simp only [contains, Bool.or_eq_false_iff] at hd ht
    rw [eval, eval, ih hd.2 ht.2]

omit [ExactScalar S] in
theorem contains_of_isScalar {k : Expr S} (h : k.isScalar = true) :
    k.hasDifferential = false ∧ k.contains .trace = false := by
  induction k with
  | scalarVar | literal => exact ⟨rfl, rfl⟩
  | scale a b iha ihb =>
    simp only [isScalar, Bool.and_eq_true] at h
    simp [contains, iha h.1, ihb h.2]
  | _ => cases h

/-- Every differential is that of `X`, no trace stands inside another, and scalar variables have
numbers for their values. -/
structure Direct (env : Environment S) (X : String) (e : Expr S) : Prop where
  differentials : ∀ a, .differential a ∈ e.postOrder → a.name? = some X
  traces : ∀ a, .trace a ∈ e.postOrder → a.contains .trace = false
  scalars : ∀ name, .scalarVar name ∈ e.postOrder →
    ∀ v, env.get? name = some v → v.isMatrix = false

omit [ExactScalar S] in
theorem Direct.of_subset {a e : Expr S} (h : e.Direct env X) (ha : a.postOrder ⊆ e.postOrder) :
    a.Direct env X :=
  ⟨fun b hb => h.differentials b (ha hb), fun b hb => h.traces b (ha hb),
    fun name hn => h.scalars name (ha hn)⟩

omit [ExactScalar S] in
theorem Direct.operands {a b e : Expr S} (h : e.Direct env X)
    (he : e.postOrder = a.postOrder ++ b.postOrder ++ [e]) : a.Direct env X ∧ b.Direct env X := by
  constructor <;> refine h.of_subset ?_ <;> rw [he] <;> intro c hc <;> simp [hc]

theorem eval_of_isScalar {k : Expr S} {u : Value S} (hk : k.isScalar = true)
    (hs : k.Direct env X) (h : k.eval env = .ok u) : ∃ s, u = .scalar s := by
  induction k generalizing u with
  | literal => exact ⟨_, (Except.ok.inj h).symm⟩
  | scalarVar name =>
    have hu := hs.scalars name (by simp [postOrder]) u (Environment.lookup_eq_ok.1 h)
    cases u with
    | scalar s => exact ⟨s, rfl⟩
    | matrix => cases hu
  | scale a b iha ihb =>
    simp only [isScalar, Bool.and_eq_true] at hk
    obtain ⟨ha, hb⟩ := hs.operands rfl
    obtain ⟨p, q, hp, hq, hu⟩ := eval_scale_ok.1 h
    obtain ⟨s, rfl⟩ := iha hk.1 ha hp
    obtain ⟨t, rfl⟩ := ihb hk.2 hb hq
    exact ⟨s * t, (Except.ok.inj hu).symm⟩
  | _ => cases hk

/-! ## Canonical forms -/

variable {H : Matrix (Fin m) (Fin n) S}

/-- In gradient mode the expression is worth a matrix, and with `H` for the differential it has the
value that the matrix gives along `H`. -/
def ReadsOff (env : Environment S) (X : String) (H : Matrix (Fin m) (Fin n) S) (e : Expr S)
    (v : Value S) : Prop :=
  ∃ (w : Value S) (G : Matrix (Fin n) (Fin m) S),
    e.eval (env.withMode (.gradient X)) = .ok w ∧ w.Fills G ∧ v = .scalar (G * H).trace

namespace ReadsOff

variable {a b k : Expr S} {u v w : Value S} {s : S}

theorem add (ha : a.ReadsOff env X H u) (hb : b.ReadsOff env X H v) (hw : u.add v = .ok w) :
    (add a b).ReadsOff env X H w := by
  obtain ⟨p, F, hp, hF, rfl⟩ := ha
  obtain ⟨q, G, hq, hG, rfl⟩ := hb
  obtain ⟨r, hr, hFG⟩ := hF.add hG
  cases hw
  exact ⟨r, F + G, eval_add_ok.2 ⟨p, q, hp, hq, hr⟩, hFG,
    by rw [Matrix.add_mul, Matrix.trace_add]⟩

theorem sub (ha : a.ReadsOff env X H u) (hb : b.ReadsOff env X H v) (hw : u.sub v = .ok w) :
    (sub a b).ReadsOff env X H w := by
  obtain ⟨p, F, hp, hF, rfl⟩ := ha
  obtain ⟨q, G, hq, hG, rfl⟩ := hb
  obtain ⟨r, hr, hFG⟩ := hF.sub hG
  cases hw
  exact ⟨r, F - G, eval_sub_ok.2 ⟨p, q, hp, hq, hr⟩, hFG,
    by rw [Matrix.sub_mul, Matrix.trace_sub]⟩

theorem scale (hk : k.isScalar = true) (hs : k.eval env = .ok (.scalar s))
    (hb : b.ReadsOff env X H v) (hw : (Value.scalar s).mul v = .ok w) :
    (scale k b).ReadsOff env X H w := by
  obtain ⟨q, G, hq, hG, rfl⟩ := hb
  obtain ⟨hd, ht⟩ := contains_of_isScalar hk
  cases hw
  refine ⟨q.scaleBy s, s • G, ?_, hG.scaleBy s, ?_⟩
  · exact eval_scale_ok.2
      ⟨_, q, (eval_withMode hd ht _).trans hs, hq, Value.scalar_mul s q⟩
  · rw [Matrix.smul_mul, Matrix.trace_smul, smul_eq_mul]

/-- A trace is passed through, and its operand is the factor before the differential. -/
theorem trace {G : Matrix (Fin n) (Fin m) S}
    (ha : a.eval (env.withMode (.gradient X)) = .ok (.ofMatrix G)) :
    (trace a).ReadsOff env X H (.scalar (G * H).trace) := by
  refine ⟨.ofMatrix G, G, ?_, .inl rfl, rfl⟩
  rw [eval, ha]
  rfl

end ReadsOff

section Terms

variable {inner : Expr S} {v : Value S}

theorem eval_differential_along (hm : env.mode = .value)
    (hH : env.get? (differentialIn X : Expr S).text = some (.ofMatrix H))
    (hn : inner.name? = some X) : (differential inner).eval env = .ok (.ofMatrix H) :=
  (evalDifferential_value hm hn).trans (Environment.lookup_eq_ok.2 hH)

variable (hm : env.mode = .value) (hX : env.get? X = some (.ofMatrix x))
  (hH : env.get? (differentialIn X : Expr S).text = some (.ofMatrix H))
include hm hX hH

theorem readsOff_differential (hn : inner.name? = some X)
    (h : (trace (differential inner)).eval env = .ok v) :
    (trace (differential inner)).ReadsOff env X H v := by
  obtain ⟨u, hu, hv⟩ := (eval_trace_ok hm).1 h
  obtain rfl := Except.ok.inj ((eval_differential_along hm hH hn).symm.trans hu)
  rcases Value.trace_cases hv with ⟨y, hy, -⟩ | ⟨k, N, hN, rfl⟩
  · exact absurd hy.symm (Value.scalar_ne_ofMatrix _ _)
  · obtain ⟨rfl, rfl⟩ := Value.ofMatrix_eq hN
    obtain rfl := Value.ofMatrix_inj.1 hN
    have htrace := ReadsOff.trace (H := H) (eval_differential_gradient hX hn)
    rwa [Matrix.one_mul] at htrace

/-- The factor before the differential may be a scalar or a matrix. -/
theorem readsOff_matMul {g : Expr S} (hd : g.hasDifferential = false)
    (ht : g.contains .trace = false) (hn : inner.name? = some X)
    (h : (trace (matMul g (differential inner))).eval env = .ok v) :
    (trace (matMul g (differential inner))).ReadsOff env X H v := by
  obtain ⟨p, hp, hv⟩ := (eval_trace_ok hm).1 h
  obtain ⟨u, w, hu, hw, hp⟩ := eval_matMul_ok.1 hp
  obtain rfl := Except.ok.inj ((eval_differential_along hm hH hn).symm.trans hw)
  have hg := (eval_withMode hd ht (.gradient X)).trans hu
  have hone := eval_differential_gradient hX hn
  rcases Value.mul_cases hp with ⟨y, rfl, rfl⟩ | ⟨y, hy, -⟩ | ⟨k, l, n', G, N, rfl, hN, rfl⟩
  · rw [Value.scaleBy_ofMatrix] at hv
    rcases Value.trace_cases hv with ⟨z, hz, -⟩ | ⟨k, N, hN, rfl⟩
    · exact absurd hz.symm (Value.scalar_ne_ofMatrix _ _)
    · obtain ⟨rfl, rfl⟩ := Value.ofMatrix_eq hN
      obtain rfl := Value.ofMatrix_inj.1 hN
      have hG : (matMul g (differential inner)).eval (env.withMode (.gradient X)) =
          .ok (.ofMatrix (y • (1 : Matrix (Fin n) (Fin n) S))) := by
        refine eval_matMul_ok.2 ⟨_, _, hg, hone, ?_⟩
        rw [Value.scalar_mul, Value.scaleBy_ofMatrix]
      have htrace := ReadsOff.trace (H := H) hG
      rwa [Matrix.smul_mul, Matrix.one_mul] at htrace
  · exact absurd hy.symm (Value.scalar_ne_ofMatrix _ _)
  · obtain ⟨rfl, rfl⟩ := Value.ofMatrix_eq hN
    obtain rfl := Value.ofMatrix_inj.1 hN
    rcases Value.trace_cases hv with ⟨z, hz, -⟩ | ⟨k', M, hM, rfl⟩
    · exact absurd hz.symm (Value.scalar_ne_ofMatrix _ _)
    · obtain ⟨rfl, rfl⟩ := Value.ofMatrix_eq hM
      obtain rfl := Value.ofMatrix_inj.1 hM
      refine ReadsOff.trace (eval_matMul_ok.2 ⟨_, _, hg, hone, ?_⟩)
      rw [Value.ofMatrix_mul, Matrix.mul_one]

theorem readsOff_of_isCanonicalTerm {e : Expr S} (hc : e.isCanonicalTerm = true)
    (he : e.Direct env X) (h : e.eval env = .ok v) : e.ReadsOff env X H v := by
  induction e generalizing v with
  | scale k b _ ihb =>
    simp only [isCanonicalTerm, Bool.and_eq_true] at hc
    obtain ⟨hk, hb⟩ := he.operands rfl
    obtain ⟨p, q, hp, hq, hv⟩ := eval_scale_ok.1 h
    obtain ⟨s, rfl⟩ := eval_of_isScalar hc.1 hk hp
    exact (ihb hc.2 hb hq).scale hc.1 hp hv
  | trace a _ =>
    cases a with
    | differential inner =>
      exact readsOff_differential hm hX hH (he.differentials inner (by simp [postOrder])) h
    | matMul g d =>
      cases d with
      | differential inner =>
        have hinside := he.traces (matMul g (differential inner)) (by simp [postOrder])
        simp only [contains, Bool.or_eq_false_iff] at hinside
        exact readsOff_matMul hm hX hH (by simpa [isCanonicalTerm] using hc) hinside.1.2
          (he.differentials inner (by simp [postOrder])) h
      | _ => cases hc
    | _ => cases hc
  | _ => cases hc

theorem readsOff_of_isCanonical {e : Expr S} (hc : e.isCanonical = true) (he : e.Direct env X)
    (h : e.eval env = .ok v) : e.ReadsOff env X H v := by
  induction e generalizing v with
  | null =>
    cases h
    exact ⟨.scalar 0, 0, rfl, .inr ⟨rfl, rfl⟩, by simp⟩
  | add a b iha ihb =>
    simp only [isCanonical, Bool.and_eq_true] at hc
    obtain ⟨ha, hb⟩ := he.operands rfl
    obtain ⟨p, q, hp, hq, hv⟩ := eval_add_ok.1 h
    exact (iha hc.1 ha hp).add (ihb hc.2 hb hq) hv
  | sub a b iha ihb =>
    simp only [isCanonical, Bool.and_eq_true] at hc
    obtain ⟨ha, hb⟩ := he.operands rfl
    obtain ⟨p, q, hp, hq, hv⟩ := eval_sub_ok.1 h
    exact (iha hc.1 ha hp).sub (ihb hc.2 hb hq) hv
  | _ => exact readsOff_of_isCanonicalTerm hm hX hH hc he h

end Terms

/-- Only the names that occur matter for the value in gradient mode. -/
theorem eval_gradient_congr {env' : Environment S} {e : Expr S}
    (hd : ∀ a, .differential a ∈ e.postOrder → a.name? = some X)
    (hX : env.get? X = env'.get? X)
    (hnames : ∀ name, .var name ∈ e.postOrder ∨ .scalarVar name ∈ e.postOrder →
      env.get? name = env'.get? name) {a : Expr S} (ha : a.postOrder ⊆ e.postOrder) {w : Value S}
    (h : a.eval (env.withMode (.gradient X)) = .ok w) :
    a.eval (env'.withMode (.gradient X)) = .ok w := by
  have hlookup : ∀ {name : String} {u : Value S} {mode}, env.get? name = env'.get? name →
      (env.withMode mode).lookup name = .ok u → (env'.withMode mode).lookup name = .ok u :=
    fun hname hu => Environment.lookup_eq_ok.2 (hname.symm.trans (Environment.lookup_eq_ok.1 hu))
  induction a generalizing w with
  | literal | null => exact h
  | var name => exact hlookup (hnames name (.inl (ha (by simp [postOrder])))) h
  | scalarVar name => exact hlookup (hnames name (.inr (ha (by simp [postOrder])))) h
  | differential inner =>
    have hn := hd inner (ha (by simp [postOrder]))
    have heval : ∀ e : Environment S, (differential inner).eval (e.withMode (.gradient X)) =
        (do return .matrix (.identity (← (e.withMode (.gradient X)).lookup X).shape.rows)) := by
      intro e
      simp only [eval, evalDifferential, Environment.withMode, hn, if_true]
    rw [heval] at h ⊢
    obtain ⟨u, hu, h⟩ := bind_eq_ok h
    rw [hlookup hX hu]
    exact h
  | add a b iha ihb =>
    obtain ⟨p, q, hp, hq, hw⟩ := eval_add_ok.1 h
    exact eval_add_ok.2 ⟨p, q, iha (fun c hc => ha (by simp [postOrder, hc])) hp,
      ihb (fun c hc => ha (by simp [postOrder, hc])) hq, hw⟩
  | sub a b iha ihb =>
    obtain ⟨p, q, hp, hq, hw⟩ := eval_sub_ok.1 h
    exact eval_sub_ok.2 ⟨p, q, iha (fun c hc => ha (by simp [postOrder, hc])) hp,
      ihb (fun c hc => ha (by simp [postOrder, hc])) hq, hw⟩
  | scale a b iha ihb =>
    obtain ⟨p, q, hp, hq, hw⟩ := eval_scale_ok.1 h
    exact eval_scale_ok.2 ⟨p, q, iha (fun c hc => ha (by simp [postOrder, hc])) hp,
      ihb (fun c hc => ha (by simp [postOrder, hc])) hq, hw⟩
  | matMul a b iha ihb =>
    obtain ⟨p, q, hp, hq, hw⟩ := eval_matMul_ok.1 h
    exact eval_matMul_ok.2 ⟨p, q, iha (fun c hc => ha (by simp [postOrder, hc])) hp,
      ihb (fun c hc => ha (by simp [postOrder, hc])) hq, hw⟩
  | trace a ih =>
    obtain ⟨p, hp, hw⟩ := bind_eq_ok h
    rw [eval, ih (fun c hc => ha (by simp [postOrder, hc])) hp]
    exact hw
  | transpose a ih =>
    obtain ⟨p, hp, rfl⟩ := eval_transpose_ok.1 h
    exact eval_transpose_ok.2 ⟨p, ih (fun c hc => ha (by simp [postOrder, hc])) hp, rfl⟩

theorem gradient_of_fills (hX : env.get? X = some (.ofMatrix x)) {e : Expr S} {w : Value S}
    {G : Matrix (Fin n) (Fin m) S} (h : e.eval (env.withMode (.gradient X)) = .ok w)
    (hw : w.Fills G) : e.gradient X env = .ok (.ofMatrix Gᵀ) := by
  unfold gradient
  simp only [hX, h]
  rcases hw with rfl | ⟨rfl, rfl⟩
  · exact congrArg Except.ok (Grid.transpose_ofMatrix G)
  · rfl

/-- Along every direction along which a canonical form has a value at all, that value is the one that
the gradient gives; and the gradient has the shape of the variable. It can be read off before the
direction is known, unless a variable is itself called like the differential. -/
theorem gradient_of_isCanonical {e : Expr S} {v : Value S} (hm : env.mode = .value)
    (hX : env.get? X = some (.ofMatrix x)) (hc : e.isCanonical = true)
    (he : e.Direct (env.set (differentialIn X : Expr S).text (.ofMatrix H)) X)
    (h : e.eval (env.set (differentialIn X : Expr S).text (.ofMatrix H)) = .ok v) :
    ∃ M : Matrix (Fin m) (Fin n) S, v = .scalar (∑ i, ∑ j, M i j * H i j) ∧
      e.gradient X (env.set (differentialIn X : Expr S).text (.ofMatrix H)) =
        .ok (.ofMatrix M) ∧
      ((∀ name, .var name ∈ e.postOrder ∨ .scalarVar name ∈ e.postOrder →
        name ≠ (differentialIn X : Expr S).text) → e.gradient X env = .ok (.ofMatrix M)) := by
  have hset := Environment.get?_set_of_ne env (.ofMatrix H) (text_differentialIn_ne S X).symm
  have hm' : (env.set (differentialIn X : Expr S).text (.ofMatrix H)).mode = .value := hm
  obtain ⟨w, G, hw, hG, rfl⟩ :=
    readsOff_of_isCanonical hm' (hset.trans hX) (Environment.get?_set_self _ _ _) hc he h
  refine ⟨Gᵀ, ?_, gradient_of_fills (hset.trans hX) hw hG, fun hnames => ?_⟩
  · rw [sum_mul_eq_trace]
  · refine gradient_of_fills hX (eval_gradient_congr he.differentials hset ?_ (fun _ h => h) hw) hG
    exact fun name hn => Environment.get?_set_of_ne env _ (hnames name hn)

/-- Values for a matrix that is not square, for a factor, and for a scalar. -/
def samplePlace : Environment Int where
  values := [("X", .ofMatrix !![1, 2, 3; 4, 5, 6]), ("A", .ofMatrix !![1, 0; 2, 1; 0, 3]),
    ("c", .scalar 5)]

/-- The canonical form `c*Tr(A*d(X))-Tr((A+c)*d(X))`. -/
def sampleForm : Expr Int :=
  .sub (.scale (.scalarVar "c") (.trace (.matMul (.var "A") (.differential (.var "X")))))
    (.trace (.matMul (.add (.var "A") (.scalarVar "c")) (.differential (.var "X"))))

theorem gradient_of_isCanonical_mixedSum :
    ∃ v, sampleForm.eval (samplePlace.set (differentialIn "X" : Expr Int).text
        (.ofMatrix !![1, 1, 0; 0, 1, 2])) = .ok v ∧
      ∃ M : Matrix (Fin 2) (Fin 3) Int,
        v = .scalar (∑ i, ∑ j, M i j * !![1, 1, 0; 0, 1, 2] i j) ∧
          sampleForm.gradient "X" samplePlace = .ok (.ofMatrix M) := by
  obtain ⟨v, hv⟩ : ∃ v, sampleForm.eval (samplePlace.set (differentialIn "X" : Expr Int).text
      (.ofMatrix !![1, 1, 0; 0, 1, 2])) = .ok v := ⟨_, rfl⟩
  have hdirect : sampleForm.Direct (samplePlace.set (differentialIn "X" : Expr Int).text
      (.ofMatrix !![1, 1, 0; 0, 1, 2])) "X" := by
    refine ⟨fun a ha => ?_, fun a ha => ?_, fun name hn u hu => ?_⟩
    · simp only [sampleForm, postOrder, List.cons_append, List.nil_append, List.mem_cons,
        reduceCtorEq, differential.injEq, List.not_mem_nil, or_self, or_false, false_or] at ha
      rw [ha]
      rfl
    · simp only [sampleForm, postOrder, List.cons_append, List.nil_append, List.mem_cons,
        reduceCtorEq, trace.injEq, List.not_mem_nil, or_self, or_false, false_or] at ha
      rcases ha with rfl | rfl
      · rfl
      · rfl
    · simp only [sampleForm, postOrder, List.cons_append, List.nil_append, List.mem_cons,
        reduceCtorEq, scalarVar.injEq, List.not_mem_nil, or_self, or_false, false_or] at hn
      subst hn
      cases hu
      rfl
  obtain ⟨M, hM, -, hfree⟩ := gradient_of_isCanonical rfl rfl rfl hdirect hv
  refine ⟨v, hv, M, hM, hfree fun name hn => ?_⟩
  simp only [sampleForm, postOrder, List.cons_append, List.nil_append, List.mem_cons,
    reduceCtorEq, var.injEq, scalarVar.injEq, List.not_mem_nil, or_self, or_false,
    false_or] at hn
  rcases hn with (rfl | rfl | rfl | rfl) | rfl <;> decide

/-- A square matrix, and a place to take the gradient at. -/
def sampleSquare : Environment Int where
  values := [("A", .ofMatrix !![1, 2; 3, 4]), ("X", .ofMatrix !![0, 0; 0, 0])]

/-- The canonical form `Tr(Tr(A)*d(X))`, in which a trace stands inside another. -/
def innerTrace : Expr Int :=
  .trace (.matMul (.trace (.var "A")) (.differential (.var "X")))

/-- The trace inside is passed through too: along the identity the form has the value 10, and what is
read off gives 5. -/
theorem gradient_innerTrace :
    innerTrace.isCanonical = true ∧
      innerTrace.gradient "X" sampleSquare = .ok (.ofMatrix !![1, 3; 2, 4]) ∧
      innerTrace.eval (sampleSquare.set (differentialIn "X" : Expr Int).text
        (.ofMatrix !![1, 0; 0, 1])) = .ok (.scalar 10) ∧
      ∑ i, ∑ j, (!![1, 3; 2, 4] : Matrix (Fin 2) (Fin 2) Int) i j * !![1, 0; 0, 1] i j = 5 :=
  ⟨rfl, rfl, rfl, by decide⟩

/-- The form `Tr(d(X))` has no value along any direction if `X` is not square. What is read off then
has the shape of an identity matrix. -/
theorem gradient_shape :
    (trace (.differential (.var "X")) : Expr Int).isCanonical = true ∧
      (trace (.differential (.var "X")) : Expr Int).gradient "X" samplePlace =
        .ok (.ofMatrix (1 : Matrix (Fin 2) (Fin 2) Int)) :=
  ⟨rfl, rfl⟩

end Expr

end TraceCalculus
