import TraceCalculus.Proofs.GenuineSteps
import TraceCalculus.Proofs.LinearTerms
import TraceCalculus.Proofs.RunValue
import TraceCalculus.Proofs.Simplified

/-! # The steps of a run keep values

A rule may leave the zero element where it found a matrix that is zero, and then the evaluator tells
the two apart. In a run this does not happen: a node that a rule is applied to is neat, and of neat
operands that are not the zero element neither a product nor a sum is (`Expr.Product.isNull_eq_false`
and so on). A difference can cancel, but the products and the transposes that rules put into one are
different as the terms they come from are (`Expr.times_right_cancel`, `Expr.times_left_cancel`,
`Expr.Neat.transposed_transposed`). So before and after a step the evaluator finds one value
(`Step.Genuine.eval_eq`), and `Canonical.run_steps_genuine` says so of every step of every run.
-/

set_option autoImplicit false

namespace TraceCalculus

namespace Expr

/-! ## Neat operands that are not the zero element -/

section Numeric

variable {S : Type} [Scalar S] [NumericScalar S] {a b c e : Expr S}

theorem Product.isNull_eq_false (h : Product a b c) (ha : a.Neat) (hb : b.Neat)
    (hna : a.isNull = false) (hnb : b.isNull = false) : c.isNull = false := by
  induction h with
  | nullLeft => exact hna
  | nullRight => exact hnb
  | fold | scaleLeft | scaleRight | matMul => rfl
  | oneLeft => exact hnb
  | oneRight => exact hna
  | swap _ _ _ _ ih => exact ih trivial ha rfl hna
  | mergeLeft _ _ ht _ iht ihc =>
    exact ihc (ht.neat ha hb.1) hb.2.1 (iht ha hb.1 hna hb.2.2.left) hb.2.2.right
  | mergeRight _ _ _ ht _ iht ihc =>
    exact ihc (ht.neat ha.1 hb) ha.2.1 (iht ha.1 hb ha.2.2.left hnb) ha.2.2.right
  | mergeBoth _ _ _ ht hm _ iht ihm ihc =>
    exact ihc (ht.neat ha.1 hb.1) (hm.neat ha.2.1 hb.2.1)
      (iht ha.1 hb.1 ha.2.2.left hb.2.2.left) (ihm ha.2.1 hb.2.1 ha.2.2.right hb.2.2.right)
  | hoistLeft _ _ _ _ hm _ ihm ihc =>
    exact ihc ha.1 (hm.neat ha.2.1 hb) ha.2.2.left (ihm ha.2.1 hb ha.2.2.right hnb)
  | hoistRight _ _ _ _ hm _ ihm ihc =>
    exact ihc hb.1 (hm.neat ha hb.2.1) hb.2.2.left (ihm ha hb.2.1 hna hb.2.2.right)

theorem Plus.isNull_eq_false (h : Plus a b c) (ha : a.Neat) (hna : a.isNull = false)
    (hnb : b.isNull = false) : c.isNull = false := by
  cases h with
  | nullLeft => exact hnb
  | nullRight => exact hna
  | fold | add => rfl
  | double _ _ hc => exact hc.isNull_eq_false trivial ha rfl hna

omit [NumericScalar S] in
theorem Minus.isNull_eq_false (h : Minus a b c) (hna : a.isNull = false)
    (hnb : b.isNull = false) (hab : (a == b) = false) : c.isNull = false := by
  cases h with
  | nullRight => exact hna
  | nullLeft => cases hna
  | cancel heq => rw [hab] at heq; cases heq
  | fold | sub => rfl

omit [Scalar S] [NumericScalar S] in
theorem Tracing.isNull_eq_false (h : Tracing a c) (hna : a.isNull = false) : c.isNull = false := by
  cases h with
  | null | scalar => exact hna
  | trace => rfl

omit [NumericScalar S] in
theorem Transposition.isNull_eq_false (h : Transposition a c) (ha : a.Neat)
    (hna : a.isNull = false) : c.isNull = false := by
  cases h with
  | null | scalar => exact hna
  | trace | transpose => rfl
  | turnBack => exact (isTraceable_iff.1 (isTraceable_of_isTurnable ha.2)).1

/-- Filling in a replacement without differences makes no zero element. -/
theorem isNull_subst {r : Expr S} {σ : Assignment S} (hσ : σ.All Neat)
    (hd : r.hasDifferential = false) (hs : r.contains .sub = false)
    (h : (r.instantiate σ).hasNull = false) : (r.subst σ).isNull = false := by
  have hleaf : ∀ x : Expr S, x.hasNull = false → x.isNull = false := by
    intro x hx
    cases x <;> first | rfl | cases hx
  induction r with
  | var | scalarVar | literal | null => exact hleaf _ h
  | differential => cases hd
  | sub => simp [contains] at hs
  | add a b iha ihb =>
    simp only [hasDifferential, contains, instantiate, hasNull, Bool.or_eq_false_iff] at hd hs h
    exact (plus_add _ _).isNull_eq_false (neat_subst hσ a) (iha hd.1.2 hs.1.2 h.1)
      (ihb hd.2 hs.2 h.2)
  | scale a b iha ihb | matMul a b iha ihb =>
    simp only [hasDifferential, contains, instantiate, hasNull, Bool.or_eq_false_iff] at hd hs h
    exact (product_times _ _).isNull_eq_false (neat_subst hσ a) (neat_subst hσ b)
      (iha hd.1.2 hs.1.2 h.1) (ihb hd.2 hs.2 h.2)
  | trace a ih =>
    simp only [hasDifferential, contains, instantiate, hasNull, Bool.or_eq_false_iff] at hd hs h
    exact (tracing_traced _).isNull_eq_false (ih hd.2 hs.2 h)
  | transpose a ih =>
    simp only [hasDifferential, contains, instantiate, hasNull, Bool.or_eq_false_iff] at hd hs h
    exact (transposition_transposed _).isNull_eq_false (neat_subst hσ a) (ih hd.2 hs.2 h)

/-! ## Cancelling -/

omit [NumericScalar S] in
/-- Transposing twice changes nothing. -/
theorem Neat.transposed_transposed (h : e.Neat) : e.transposed.transposed = e := by
  have ht := transposition_transposed e
  have hturn : ∀ x : Expr S, e = .transpose x → x.transposed = e := by
    rintro x rfl
    exact transposed_of_isTurnable h.2
  generalize e.transposed = c at ht ⊢
  cases ht with
  | null | trace => rfl
  | turnBack => exact hturn _ rfl
  | transpose => rfl
  | scalar hs =>
    cases e with
    | scale => exact if_pos hs
    | _ => first | rfl | cases hs

omit [Scalar S] [NumericScalar S] in
theorem solid_of_unscaled (hn : e.isNull = false) (hs : e.isScalar = false)
    (hu : e.scaled? = none) : e.Solid := by
  cases e <;> trivial

omit [NumericScalar S] in
/-- What is neat and neither a scalar nor the zero element is solid, or a coefficient times something
solid. -/
theorem Neat.multiple (h : e.Neat) (hn : e.isNull = false) (hs : e.isScalar = false) :
    e.Multiple Solid := by
  cases e with
  | scale k b =>
    obtain ⟨-, -, hk⟩ := h
    have hb : b.isScalar = false := by simpa [isScalar, hk.scalar] using hs
    exact ⟨⟨hk.scalar, hk.one⟩, solid_of_unscaled hk.right hb hk.unscaled⟩
  | scalarVar | literal => cases hs
  | null => cases hn
  | _ => trivial

omit [NumericScalar S] in
theorem Multiple.solid_or (h : e.Multiple Solid) :
    e.Solid ∨ ∃ k b, e = .scale k b ∧ k.IsCoefficient ∧ b.Solid := by
  cases e with
  | scale k b => exact .inr ⟨k, b, rfl, h⟩
  | _ => exact .inl h

end Numeric

variable {S : Type} [ExactScalar S] {a b c e : Expr S} {I : Reading S} {v : Value S}

theorem times_solid (ha : a.Solid) (hb : b.Solid) : a * b = .matMul a b :=
  (product_times a b).of_solid ha hb

theorem times_right_cancel (ha : a.Multiple Solid) (hb : b.Multiple Solid) (hc : c.Solid)
    (h : a * c = b * c) : a = b := by
  have hscale : ∀ k x : Expr S, k.IsCoefficient → x.Solid →
      .scale k x * c = .scale k (.matMul x c) :=
    fun k x hk hx => (product_times _ c).of_scale_solid hk hx hc
  rcases ha.solid_or with ha | ⟨k, a, rfl, hk, ha⟩ <;>
    rcases hb.solid_or with hb | ⟨l, b, rfl, hl, hb⟩
  · rw [times_solid ha hc, times_solid hb hc] at h
    exact (matMul.inj h).1
  · rw [times_solid ha hc, hscale l b hl hb] at h
    cases h
  · rw [hscale k a hk ha, times_solid hb hc] at h
    cases h
  · rw [hscale k a hk ha, hscale l b hl hb] at h
    obtain ⟨rfl, hbody⟩ := scale.inj h
    rw [(matMul.inj hbody).1]

theorem times_left_cancel (ha : a.Multiple Solid) (hb : b.Multiple Solid) (hc : c.Solid)
    (h : c * a = c * b) : a = b := by
  have hscale : ∀ k x : Expr S, k.IsCoefficient → x.Solid →
      c * .scale k x = .scale k (.matMul c x) :=
    fun k x hk hx => (product_times c _).of_solid_scale hc hk hx
  rcases ha.solid_or with ha | ⟨k, a, rfl, hk, ha⟩ <;>
    rcases hb.solid_or with hb | ⟨l, b, rfl, hl, hb⟩
  · rw [times_solid hc ha, times_solid hc hb] at h
    exact (matMul.inj h).2
  · rw [times_solid hc ha, hscale l b hl hb] at h
    cases h
  · rw [hscale k a hk ha, times_solid hc hb] at h
    cases h
  · rw [hscale k a hk ha, hscale l b hl hb] at h
    obtain ⟨rfl, hbody⟩ := scale.inj h
    rw [(matMul.inj hbody).2]

/-! ## Values that are matrices -/

theorem Means.not_isScalar (h : Means I e v) (hv : v.isMatrix = true) : e.isScalar = false := by
  by_contra hs
  rw [Bool.not_eq_false] at hs
  obtain ⟨x, rfl⟩ := h.eq_scalar hs
  cases hv

/-- Both terms of a matrix that is a difference are matrices. -/
theorem Means.sub_not_isScalar (h : Means I (.sub a b) v) (hv : v.isMatrix = true) :
    a.isScalar = false ∧ b.isScalar = false := by
  cases h with
  | sub ha hb h =>
    have hk := h.isMatrix_eq
    exact ⟨ha.not_isScalar (hk.1.trans hv), hb.not_isScalar (hk.2.trans hv)⟩

/-! ## Differences that rules spread -/

/-- A product is spread over a difference of different terms that are no scalars. -/
theorem Neat.isNull_sub_matMul (h : (matMul (sub a b) c).Neat) (ha : a.isScalar = false)
    (hb : b.isScalar = false) : (a * c - b * c).isNull = false := by
  obtain ⟨⟨hna, hnb, hd⟩, hnc, hmul⟩ := h
  have hsolid := solid_of_unscaled hmul.right hmul.matrixRight hmul.unscaledRight
  refine (minus_sub _ _).isNull_eq_false
    ((product_times a c).isNull_eq_false hna hnc hd.left hmul.right)
    ((product_times b c).isNull_eq_false hnb hnc hd.right hmul.right)
    (beq_eq_false_iff_ne.2 fun heq => beq_eq_false_iff_ne.1 hd.ne ?_)
  exact times_right_cancel (hna.multiple hd.left ha) (hnb.multiple hd.right hb) hsolid heq

theorem Neat.isNull_matMul_sub (h : (matMul c (sub a b)).Neat) (ha : a.isScalar = false)
    (hb : b.isScalar = false) : (c * a - c * b).isNull = false := by
  obtain ⟨hnc, ⟨hna, hnb, hd⟩, hmul⟩ := h
  have hsolid := solid_of_unscaled hmul.left hmul.matrixLeft hmul.unscaledLeft
  refine (minus_sub _ _).isNull_eq_false
    ((product_times c a).isNull_eq_false hnc hna hmul.left hd.left)
    ((product_times c b).isNull_eq_false hnc hnb hmul.left hd.right)
    (beq_eq_false_iff_ne.2 fun heq => beq_eq_false_iff_ne.1 hd.ne ?_)
  exact times_left_cancel (hna.multiple hd.left ha) (hnb.multiple hd.right hb) hsolid heq

theorem Neat.isNull_transpose_sub (h : (transpose (sub a b)).Neat) :
    (a.transposed - b.transposed).isNull = false := by
  obtain ⟨⟨hna, hnb, hd⟩, -⟩ := h
  refine (minus_sub _ _).isNull_eq_false
    ((transposition_transposed a).isNull_eq_false hna hd.left)
    ((transposition_transposed b).isNull_eq_false hnb hd.right)
    (beq_eq_false_iff_ne.2 fun heq => beq_eq_false_iff_ne.1 hd.ne ?_)
  rw [← hna.transposed_transposed, heq, hnb.transposed_transposed]

/-- The expression is a trace, or a combination of terms the first of which is one. -/
def TraceFirst : Expr S → Prop
  | .trace _ => True
  | .scale _ a | .add a _ | .sub a _ => a.TraceFirst
  | _ => False

theorem Means.isMatrix_of_traceFirst (h : Means I e v) (he : e.TraceFirst) :
    v.isMatrix = false := by
  induction h with
  | trace _ h =>
    obtain ⟨x, rfl⟩ := Value.eq_scalar_of_type (Value.type_of_trace h)
    rfl
  | add _ _ h iha | sub _ _ h iha => exact h.isMatrix_eq.1.symm.trans (iha he)
  | scale _ _ _ _ ihb => rw [Value.isMatrix_scaleBy, ihb he]
  | _ => cases he

end Expr

open TraceCalculus.Expr (Means Neat)

variable {S : Type} [ExactScalar S] {I : Reading S} {stage : Stage} {e : Expr S} {v : Value S}

/-! ## Rules that subtract -/

omit [ExactScalar S] in
/-- A rule whose replacement subtracts is about traces, or it spreads a product or a transpose over a
difference. -/
theorem Stage.subtracting_cases [Scalar S] {rule : Rule S} (σ : Assignment S)
    (hr : rule ∈ stage.rules) (hs : rule.replacement.contains .sub = true) :
    (rule.pattern.instantiate σ).TraceFirst ∨
      (∃ a b c, rule.pattern.instantiate σ = .matMul (.sub a b) c ∧
        rule.replacement.subst σ = a * c - b * c) ∨
      (∃ a b c, rule.pattern.instantiate σ = .matMul c (.sub a b) ∧
        rule.replacement.subst σ = c * a - c * b) ∨
      ∃ a b, rule.pattern.instantiate σ = .transpose (.sub a b) ∧
        rule.replacement.subst σ = a.transposed - b.transposed := by
  rcases mem_rules hr with hr | hr | hr <;>
    simp only [isolating, normalizing, collecting, List.mem_cons, List.not_mem_nil, or_false] at hr
  · rcases hr with rfl | rfl | rfl | rfl | rfl | rfl | rfl | rfl | rfl | rfl | rfl | rfl | rfl | rfl | rfl
    all_goals try cases hs
    · exact .inl trivial
    · exact .inr (.inl ⟨_, _, _, rfl, rfl⟩)
    · exact .inr (.inr (.inl ⟨_, _, _, rfl, rfl⟩))
    · exact .inr (.inr (.inr ⟨_, _, rfl, rfl⟩))
  · rcases hr with rfl | rfl | rfl | rfl | rfl
    all_goals try cases hs
    exact .inr (.inr (.inr ⟨_, _, rfl, rfl⟩))
  · rcases hr with rfl | rfl | rfl | rfl | rfl | rfl | rfl | rfl | rfl | rfl
    all_goals try cases hs
    all_goals exact .inl trivial

/-- A rule leaves no zero element of a neat expression that stands for a matrix. -/
theorem RuleMatch.isNull_output {m : RuleMatch S} (hm : m ∈ ruleMatches e stage.rules)
    (he : e.Neat) (hn : e.hasNull = false) (hs : I.strict) (hv : Means I e v)
    (hmat : v.isMatrix = true) : m.output.isNull = false := by
  obtain ⟨hr, hmatch⟩ := mem_ruleMatches hm
  have hinst := Expr.instantiate_of_matchAgainst hmatch
  have hstart : Assignment.All Neat ([] : Assignment S) := nofun
  have hσ := hstart.matchFrom Neat.of_mem_children he hmatch
  rw [m.output_eq]
  cases hsub : m.rule.replacement.contains .sub with
  | false =>
    rw [← hinst] at hn
    exact Expr.isNull_subst hσ (Stage.hasDifferential_replacement hr) hsub
      (Stage.hasNull_replacement hr hn)
  | true =>
    rcases Stage.subtracting_cases m.assignment hr hsub with
      hfirst | ⟨a, b, c, hp, ho⟩ | ⟨a, b, c, hp, ho⟩ | ⟨a, b, hp, ho⟩
    · rw [hinst] at hfirst
      rw [hv.isMatrix_of_traceFirst hfirst] at hmat
      cases hmat
    · obtain rfl := hinst.symm.trans hp
      cases hv with | matMul hu _ hk _ =>
      obtain ⟨ha, hb⟩ := hu.sub_not_isScalar (hk hs).1
      exact ho ▸ he.isNull_sub_matMul ha hb
    · obtain rfl := hinst.symm.trans hp
      cases hv with | matMul _ hw hk _ =>
      obtain ⟨ha, hb⟩ := hw.sub_not_isScalar (hk hs).2
      exact ho ▸ he.isNull_matMul_sub ha hb
    · obtain rfl := hinst.symm.trans hp
      exact ho ▸ he.isNull_transpose_sub

/-! ## Values before and after a step -/

variable {env : Environment S} {step : Step S}

/-- A step on a settled node that stands for `v` where types are kept: the evaluator finds `v` before
and after it. -/
theorem Step.Genuine.eval_eq (h : step.Genuine) (ht : step.before.Tidy) (hn : step.before.Neat)
    (hm : env.mode = .value) (hv : Means (.typed env) step.before v) :
    step.before.eval env = .ok v ∧ step.after.eval env = .ok v := by
  obtain ⟨σ, hmatch, hafter⟩ := h.applied
  obtain ⟨index, hindex⟩ := List.mem_iff_getElem?.1 h.rule_mem
  obtain ⟨m, hmem, hout⟩ := exists_ruleMatch index σ hindex hmatch (Template.fill_ofExpr _ σ).symm
  replace hout : m.output = step.after := hout.trans hafter.symm
  have hnull := Canonical.hasNull_of_mem_ruleMatches ht hmem
  have hkeeps := Canonical.keeps_of_rule (I := .typed env) trivial (fun _ h => h) ht hmem
  have hafter := hkeeps.means v hv
  refine ⟨(hv.ofEnv_of_typed hnull).eval_eq hm, ?_⟩
  rcases hkeeps.tidy with heq | htidy
  · -- the zero element stands for the number zero only, so `v` is no matrix
    rw [heq] at hafter
    cases hafter with | null hz =>
    rw [← hout, heq]
    cases v with
    | scalar x =>
      obtain rfl := (Value.isZero_scalar x).1 hz
      rfl
    | matrix g =>
      have hne := RuleMatch.isNull_output hmem hn hnull (I := .typed env) trivial hv rfl
      rw [heq] at hne
      cases hne
  · rw [← hout]
    exact (hafter.ofEnv_of_typed htidy).eval_eq hm

namespace Expr

/-- Only matrices are multiplied, as far as both operands have a value. -/
def MatrixProducts (env : Environment S) (e : Expr S) : Prop :=
  ∀ a b, .matMul a b ∈ e.postOrder → ∀ u v, a.eval env = .ok u → b.eval env = .ok v →
    u.isMatrix = true ∧ v.isMatrix = true

theorem MatrixProducts.of_mem_children {a : Expr S} (h : e.MatrixProducts env)
    (ha : a ∈ e.children) : a.MatrixProducts env :=
  fun x y hxy => h x y (mem_postOrder_of_mem_children ha hxy)

/-- What is meant for the evaluator is meant where types are kept, too, if only matrices are
multiplied. -/
theorem Means.typed (hm : env.mode = .value) (h : Means (.ofEnv env) e v)
    (hp : e.MatrixProducts env) : Means (.typed env) e v := by
  induction h with
  | var h => exact .var h
  | scalarVar h => exact .scalarVar h
  | literal x => exact .literal x
  | null h => exact .null (Reading.null_isZero (.ofEnv env) _ h)
  | differential hn h => exact .differential hn h
  | add _ _ h iha ihb =>
    exact .add (iha (hp.of_mem_children (.head _))) (ihb (hp.of_mem_children (.tail _ (.head _)))) h
  | sub _ _ h iha ihb =>
    exact .sub (iha (hp.of_mem_children (.head _))) (ihb (hp.of_mem_children (.tail _ (.head _)))) h
  | scale hk _ _ ihs ihb =>
    exact .scale hk (ihs (hp.of_mem_children (.head _)))
      (ihb (hp.of_mem_children (.tail _ (.head _))))
  | matMul ha hb _ h iha ihb =>
    exact .matMul (iha (hp.of_mem_children (.head _))) (ihb (hp.of_mem_children (.tail _ (.head _))))
      (fun _ => hp _ _ (self_mem_postOrder _) _ _ (ha.eval_eq hm) (hb.eval_eq hm)) h
  | trace _ h ih => exact .trace (ih (hp.of_mem_children (.head _))) h
  | transpose _ ih => exact .transpose (ih (hp.of_mem_children (.head _)))

end Expr

namespace Canonical

theorem tidy_of_rebuilt {e r : Expr S} (h : Rebuilt (fun _ a => a.Tidy) e r) : r.Tidy := by
  cases h with
  | var | scalarVar | literal | differential => exact .inr rfl
  | null => exact .inl rfl
  | add ha hb => exact ha.plus hb
  | sub ha hb => exact ha.minus hb
  | scale ha hb | matMul ha hb => exact ha.times hb
  | trace ha => exact ha.traced
  | transpose ha => exact ha.transposed

/-- Every step of every run, also of one that is cut short or does not end, is the application of a
rule of its stage that changes a node. Over exact scalars the node has the same value before and
after: it has one if it has a type, and any value the evaluator finds for it stays, if differentials
are taken of variables, scalars and matrices are kept apart in sums, and only matrices are
multiplied. -/
theorem run_steps_genuine :
    (∀ {S : Type} [Scalar S] (options : Options) (fuel : Nat) (e : Expr S),
      ∀ step ∈ (run options fuel e).steps, step.Genuine) ∧
    ∀ {S : Type} [ExactScalar S] (options : Options) (fuel : Nat) (e : Expr S),
      ∀ step ∈ (run options fuel e).steps, ∀ env : Environment S, env.mode = .value →
        (∀ τ, step.before.HasType env τ →
          ∃ v, v.type = τ ∧ step.before.eval env = .ok v ∧ step.after.eval env = .ok v) ∧
        (step.before.Regular env → step.before.MatrixProducts env →
          ∀ v, step.before.eval env = .ok v → step.after.eval env = .ok v) := by
  refine ⟨fun options fuel e step h => ?_, fun options fuel e step h env hm => ?_⟩
  · exact (genuine_of_mem_run (Q := fun _ => True) (fun _ _ _ => trivial) h).1
  · obtain ⟨hgenuine, htidy, hneat⟩ := genuine_of_mem_run (Q := fun x => x.Tidy ∧ x.Neat)
      (fun _ _ h => ⟨tidy_of_rebuilt (h.mono fun _ _ h => h.1),
        neat_of_rebuilt (h.mono fun _ _ h => h.2)⟩) h
    refine ⟨fun τ hτ => ?_, fun hr hp v hv => ?_⟩
    · obtain ⟨v, hv, hmeans⟩ := hτ.exists_means
      exact ⟨v, hv, hgenuine.eval_eq htidy hneat hm hmeans⟩
    · exact (hgenuine.eval_eq htidy hneat hm ((Expr.means_of_eval hm hr hv).typed hm hp)).2

/-- A run that ends with its budget, after the rotation of the first of two traces. -/
theorem run_steps_genuine_cut_short :
    ∃ step ∈ (run { budget := some 1 } 8 sampleSum).steps, step.Genuine ∧ step.path = [1, 1] ∧
      step.before = .trace (.matMul (.differential (.var "X")) (.var "A")) ∧
      ∃ v, step.before.eval sampleEnv = .ok v ∧ step.after.eval sampleEnv = .ok v := by
  have hrun : (run { budget := some 1 } 8 sampleSum).steps.map (fun s => (s.path, s.before)) =
      [([1, 1], .trace (.matMul (.differential (.var "X")) (.var "A")))] := by
    decide +kernel
  obtain ⟨step, hsteps, hstep⟩ := List.map_eq_singleton_iff.1 hrun
  obtain ⟨hpath, hbefore⟩ := Prod.mk.inj hstep
  have hmem : step ∈ (run { budget := some 1 } 8 sampleSum).steps := by simp [hsteps]
  have htype : step.before.HasType sampleEnv .scalar := by
    have hX : Expr.HasType sampleEnv (.differential (.var "X")) (.matrix ⟨2, 2⟩) :=
      .differential (v := .ofMatrix !![5, 0; 2, 1]) rfl rfl
    have hA : Expr.HasType sampleEnv (.var "A") (.matrix ⟨2, 2⟩) :=
      .var (v := .ofMatrix !![1, 2; 3, 4]) rfl
    rw [hbefore]
    exact .trace (hX.matMul hA)
  obtain ⟨v, -, hv⟩ := (run_steps_genuine.2 _ _ _ step hmem sampleEnv rfl).1 _ htype
  exact ⟨step, hmem, run_steps_genuine.1 _ _ _ step hmem, hpath, hbefore, v, hv⟩

end Canonical

end TraceCalculus
