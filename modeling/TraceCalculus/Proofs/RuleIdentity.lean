import TraceCalculus.Proofs.RuleLaws
import TraceCalculus.Proofs.Typing

/-! # Where a rule is an identity

Every rule but eight is an identity on all it matches, for the evaluator and whatever values the
parts have. The eight collecting rules replace `Tr(A*C)+Tr(B*C)` by `Tr((A+B)*C)`, with scalars in
front of the traces or without. They are identities exactly if the two terms that are joined have
one type, or one of them is the zero element (`RuleMatch.output_keeps_value_iff`).

Nothing in a pattern asks for that. A scalar is a factor like any other in `Tr(A*C)`, and if `A` is
one and `B` is not, then `A` is added to every entry of `B`, while it stood for a multiple of the
identity before (`RuleMatch.output_misses_value`).

That the condition is necessary is a matter of what is left of the sum `A+B` once the replacement is
simplified: it is still there, as an operand somewhere (`Expr.Occurs`), because `C` has a
differential and is therefore not zero by its form (`Expr.Hollow`).
-/

set_option autoImplicit false

namespace TraceCalculus

namespace Expr

variable {S : Type}

/-! ## What is left of an operand -/

/-- `x` is a part of the expression, reached without entering a differential. -/
def Occurs (x : Expr S) : Expr S → Prop
  | .add a b => x = .add a b ∨ Occurs x a ∨ Occurs x b
  | .sub a b => x = .sub a b ∨ Occurs x a ∨ Occurs x b
  | .scale a b => x = .scale a b ∨ Occurs x a ∨ Occurs x b
  | .matMul a b => x = .matMul a b ∨ Occurs x a ∨ Occurs x b
  | .trace a => x = .trace a ∨ Occurs x a
  | .transpose a => x = .transpose a ∨ Occurs x a
  | e => x = e

/-- The expression is a sum or a difference. -/
def IsSum (e : Expr S) : Prop := e.kind = .add ∨ e.kind = .sub

theorem occurs_self (x : Expr S) : Occurs x x := by
  cases x <;> simp [Occurs]

theorem IsSum.occurs_scale {x s b : Expr S} (hx : x.IsSum) (h : Occurs x (scale s b)) :
    Occurs x s ∨ Occurs x b := by
  rcases h with rfl | h
  · rcases hx with hx | hx <;> cases hx
  · exact h

theorem IsSum.not_occurs_literal {x : Expr S} {y : S} (hx : x.IsSum) :
    ¬ Occurs x (literal y) := by
  rintro rfl
  rcases hx with hx | hx <;> cases hx

/-- The expression is zero because of a zero element below scaled nodes. -/
def Hollow : Expr S → Prop
  | .null => True
  | .scale s b => s.Hollow ∨ b.Hollow
  | _ => False

theorem IsSum.not_hollow {x : Expr S} (hx : x.IsSum) : ¬ x.Hollow := by
  cases x <;> simp_all [IsSum, kind, Hollow]

variable [ExactScalar S]

theorem Means.of_occurs {I : Reading S} {x e : Expr S} {v : Value S} (h : Means I e v)
    (hx : Occurs x e) : ∃ u, Means I x u := by
  induction h with
  | var h =>
    obtain rfl := hx
    exact ⟨_, .var h⟩
  | scalarVar h =>
    obtain rfl := hx
    exact ⟨_, .scalarVar h⟩
  | literal y =>
    obtain rfl := hx
    exact ⟨_, .literal y⟩
  | null h =>
    obtain rfl := hx
    exact ⟨_, .null h⟩
  | differential hn h =>
    obtain rfl := hx
    exact ⟨_, .differential hn h⟩
  | add ha hb h iha ihb =>
    rcases hx with rfl | hx | hx
    · exact ⟨_, .add ha hb h⟩
    · exact iha hx
    · exact ihb hx
  | sub ha hb h iha ihb =>
    rcases hx with rfl | hx | hx
    · exact ⟨_, .sub ha hb h⟩
    · exact iha hx
    · exact ihb hx
  | scale hk hs hb ihs ihb =>
    rcases hx with rfl | hx | hx
    · exact ⟨_, .scale hk hs hb⟩
    · exact ihs hx
    · exact ihb hx
  | matMul ha hb hk h iha ihb =>
    rcases hx with rfl | hx | hx
    · exact ⟨_, .matMul ha hb hk h⟩
    · exact iha hx
    · exact ihb hx
  | trace ha h iha =>
    rcases hx with rfl | hx
    · exact ⟨_, .trace ha h⟩
    · exact iha hx
  | transpose ha iha =>
    rcases hx with rfl | hx
    · exact ⟨_, .transpose ha⟩
    · exact iha hx

theorem Product.occurs_of_left {a b c x : Expr S} (h : Product a b c)
    (ih : Occurs x a ∨ Occurs x b → c = .null ∨ Occurs x c) (ha : a = .null ∨ Occurs x a) :
    c = .null ∨ Occurs x c := by
  rcases ha with rfl | ha
  · exact .inl h.eq_null_left
  · exact ih (.inl ha)

theorem Product.occurs_of_right {a b c x : Expr S} (h : Product a b c)
    (ih : Occurs x a ∨ Occurs x b → c = .null ∨ Occurs x c) (hb : b = .null ∨ Occurs x b) :
    c = .null ∨ Occurs x c := by
  rcases hb with rfl | hb
  · exact .inl h.eq_null_right
  · exact ih (.inr hb)

/-- A sum in an operand is in the product, unless that is the zero element. -/
theorem Product.occurs {a b c x : Expr S} (h : Product a b c) (hx : x.IsSum)
    (ho : Occurs x a ∨ Occurs x b) : c = .null ∨ Occurs x c := by
  induction h with
  | nullLeft | nullRight => exact .inl rfl
  | fold =>
    rcases ho with ho | ho
    · exact absurd ho hx.not_occurs_literal
    · exact absurd ho hx.not_occurs_literal
  | oneLeft => exact .inr (ho.resolve_left hx.not_occurs_literal)
  | oneRight => exact .inr (ho.resolve_right hx.not_occurs_literal)
  | swap _ _ _ _ ih => exact ih ho.symm
  | mergeLeft _ _ _ hc iht ihc =>
    rcases ho with ho | ho
    · exact hc.occurs_of_left ihc (iht (.inl ho))
    · rcases hx.occurs_scale ho with ho | ho
      · exact hc.occurs_of_left ihc (iht (.inr ho))
      · exact ihc (.inr ho)
  | mergeRight _ _ _ _ hc iht ihc =>
    rcases ho with ho | ho
    · rcases hx.occurs_scale ho with ho | ho
      · exact hc.occurs_of_left ihc (iht (.inl ho))
      · exact ihc (.inr ho)
    · exact hc.occurs_of_left ihc (iht (.inr ho))
  | mergeBoth _ _ _ _ _ hc iht ihm ihc =>
    rcases ho.imp hx.occurs_scale hx.occurs_scale with (ho | ho) | (ho | ho)
    · exact hc.occurs_of_left ihc (iht (.inl ho))
    · exact hc.occurs_of_right ihc (ihm (.inl ho))
    · exact hc.occurs_of_left ihc (iht (.inr ho))
    · exact hc.occurs_of_right ihc (ihm (.inr ho))
  | hoistLeft _ _ _ _ _ hc ihm ihc =>
    rcases ho with ho | ho
    · rcases hx.occurs_scale ho with ho | ho
      · exact ihc (.inl ho)
      · exact hc.occurs_of_right ihc (ihm (.inl ho))
    · exact hc.occurs_of_right ihc (ihm (.inr ho))
  | hoistRight _ _ _ _ _ hc ihm ihc =>
    rcases ho with ho | ho
    · exact hc.occurs_of_right ihc (ihm (.inl ho))
    · rcases hx.occurs_scale ho with ho | ho
      · exact ihc (.inl ho)
      · exact hc.occurs_of_right ihc (ihm (.inr ho))
  | scaleLeft =>
    rw [asOperand_exact]
    exact .inr (.inr ho)
  | scaleRight => exact .inr (.inr ho.symm)
  | matMul => exact .inr (.inr ho)

/-- A product is hollow only if an operand is. -/
theorem Product.hollow {a b c : Expr S} (h : Product a b c) (hc : c.Hollow) :
    a.Hollow ∨ b.Hollow := by
  induction h with
  | nullLeft => exact .inl trivial
  | nullRight => exact .inr trivial
  | fold | matMul => cases hc
  | oneLeft => exact .inr hc
  | oneRight => exact .inl hc
  | swap _ _ _ _ ih => exact (ih hc).symm
  | mergeLeft _ _ _ _ iht ihc =>
    rcases ihc hc with ht | hr
    · exact (iht ht).imp_right .inl
    · exact .inr (.inr hr)
  | mergeRight _ _ _ _ _ iht ihc =>
    rcases ihc hc with ht | hl
    · exact (iht ht).imp_left .inl
    · exact .inl (.inr hl)
  | mergeBoth _ _ _ _ _ _ iht ihm ihc =>
    rcases ihc hc with ht | hm
    · exact (iht ht).imp .inl .inl
    · exact (ihm hm).imp .inr .inr
  | hoistLeft _ _ _ _ _ _ ihm ihc =>
    rcases ihc hc with hs | hm
    · exact .inl (.inl hs)
    · exact (ihm hm).imp_left .inr
  | hoistRight _ _ _ _ _ _ ihm ihc =>
    rcases ihc hc with hs | hm
    · exact .inr (.inl hs)
    · exact (ihm hm).imp_right .inr
  | scaleLeft => rwa [asOperand_exact] at hc
  | scaleRight => exact hc.symm

omit [ExactScalar S] in
theorem not_hollow_of_isScalar {e : Expr S} (h : e.isScalar = true) : ¬ e.Hollow := by
  induction e with
  | scale s b ihs ihb =>
    simp only [isScalar, Bool.and_eq_true] at h
    rintro (hs | hb)
    · exact ihs h.1 hs
    · exact ihb h.2 hb
  | null => cases h
  | _ => exact id

/-- What has a differential and a value is not zero by its form. -/
theorem Means.not_hollow {I : Reading S} {e : Expr S} {v : Value S} (h : Means I e v)
    (hd : e.hasDifferential = true) : ¬ e.Hollow := by
  induction h with
  | null => cases hd
  | scale hk _ _ _ ihb =>
    simp only [hasDifferential, contains, Bool.or_eq_true] at hd
    rcases hd with (hd | hd) | hd
    · cases hd
    · have := hasDifferential_of_isScalar hk
      rw [hasDifferential, hd] at this
      cases this
    · rintro (hs | hb)
      · exact not_hollow_of_isScalar hk hs
      · exact ihb hd hb
  | _ => exact id

/-! ## Two traces joined -/

section Joined

variable {I : Reading S} {a b c : Expr S} {u w z p q s t r : Value S}

namespace Signed

variable {x : S} {node join : Expr S → Expr S → Expr S}

theorem isSum (h : Signed x node join) : (node a b).IsSum := by
  cases h
  · exact .inl rfl
  · exact .inr rfl

theorem subst (h : Signed x node join) (σ : Assignment S) :
    (node a b).subst σ = join (a.subst σ) (b.subst σ) := by
  cases h <;> rfl

theorem mem_children (h : Signed x node join) :
    a ∈ (node a b).children ∧ b ∈ (node a b).children := by
  cases h <;> simp [children]

theorem joinedTerms (h : Signed x node join) :
    (trace (.matMul (node a b) c)).joinedTerms? = some (a, b, c) := by
  cases h <;> rfl

theorem join_cases (h : Signed x node join) (ha : a ≠ .null) (hb : b ≠ .null) :
    (∃ y z, a = .literal y ∧ b = .literal z) ∨ a = b ∨ join a b = node a b := by
  cases h
  · exact plus_cases ha hb
  · exact minus_cases ha hb

theorem stands (h : Signed x node join) (ha : Stands I a u) (hb : Stands I b w)
    (hs : Value.Sum u (w.scaleBy x) z) : Stands I (join a b) z := by
  cases h with
  | sum =>
    rw [Value.scaleBy_one] at hs
    exact ha.plus hb hs
  | difference => exact ha.minus hb hs

theorem stands_joined (h : Signed x node join) (hI : ¬ I.strict) (ha : Stands I a u)
    (hb : Stands I b w) (hc : Stands I c z) (hp : u.mul z = .ok p) (hs : p.trace = .ok s)
    (hq : w.mul z = .ok q) (ht : q.trace = .ok t) (hr : Value.Sum s (t.scaleBy x) r)
    (hj : a = .null ∨ b = .null ∨ u.type = w.type) : Stands I (join a b * c).traced r := by
  have hq' := Value.scaleBy_mul x hq
  have ht' := Value.trace_scaleBy x ht
  rcases hj with rfl | rfl | hj
  · -- the zero element stands for the zero of the type of the other term
    obtain ⟨u', hu', hz⟩ := Value.exists_isZero (S := S) (w.scaleBy x).type
    obtain ⟨y, hy⟩ := Value.exists_sum_iff.2 hu'
    have hu : u.IsZero := stands_null_iff.1 ha
    rw [hr.eq_of_isZero_left (Value.trace_isZero hs (Value.mul_isZero_left hp hu))]
    have hsum := h.stands (stands_null_iff.2 hz) hb hy
    rw [hy.eq_of_isZero_left hz] at hsum
    exact (hsum.times hc hq' fun h => absurd h hI).traced ht'
  · obtain ⟨w', hw', hz⟩ := Value.exists_isZero (S := S) u.type
    obtain ⟨y, hy⟩ := Value.exists_sum_iff.2 (hw'.symm.trans (Value.type_scaleBy x w').symm)
    have hw : w.IsZero := stands_null_iff.1 hb
    have htzero := Value.trace_isZero ht (Value.mul_isZero_left hq hw)
    rw [hr.eq_of_isZero_right (htzero.scaleBy x)]
    have hsum := h.stands ha (stands_null_iff.2 hz) hy
    rw [hy.eq_of_isZero_right (hz.scaleBy x)] at hsum
    exact (hsum.times hc hp fun h => absurd h hI).traced hs
  · obtain ⟨y, hy⟩ := Value.exists_sum_iff.2 (hj.trans (Value.type_scaleBy x w).symm)
    obtain ⟨m, hm, htm⟩ := hy.trace_mul hp hs hq' ht' hr
    exact ((h.stands ha hb hy).times hc hm fun h => absurd h hI).traced htm

end Signed

/-- A sum times something that is not hollow, in a trace: if it has a value, so has the sum. -/
theorem Stands.means_sum {x : Expr S} {v : Value S} (h : Stands I (x * c).traced v)
    (hx : x.IsSum) (hc : ¬ c.Hollow) : ∃ y, Means I x y := by
  have hprod := product_times x c
  have hne : x * c ≠ .null := by
    intro heq
    rw [heq] at hprod
    rcases hprod.hollow trivial with hh | hh
    · exact hx.not_hollow hh
    · exact hc hh
  have ho := (hprod.occurs hx (.inl (occurs_self x))).resolve_left hne
  unfold Expr.traced at h
  split at h
  case h_1 heq => exact absurd heq hne
  case h_2 =>
    split at h
    · exact (h.means (isNull_eq_false hne)).of_occurs ho
    · exact (h.means rfl).of_occurs (.inr ho)

variable {env : Environment S} {v : Value S}

/-- Two terms have one type if the trace of what they are joined to, times a factor, has a value. -/
theorem Signed.type_eq_of_joined {x : S} {node join : Expr S → Expr S → Expr S}
    (hsigned : Signed x node join) (hm : env.mode = .value)
    (h : Stands (.ofEnv env) (join a b * c).traced v) (hc : ¬ c.Hollow)
    (ha : Stands (.ofEnv env) a u) (hb : Stands (.ofEnv env) b w) :
    a = .null ∨ b = .null ∨ u.type = w.type := by
  by_cases hna : a = .null
  · exact .inl hna
  by_cases hnb : b = .null
  · exact .inr (.inl hnb)
  refine .inr (.inr ?_)
  have hu := ha.means (isNull_eq_false hna)
  have hw := hb.means (isNull_eq_false hnb)
  rcases hsigned.join_cases hna hnb with ⟨x, y, rfl, rfl⟩ | rfl | heq
  · cases hu
    cases hw
    rfl
  · cases (hu.eval_eq hm).symm.trans (hw.eval_eq hm)
    rfl
  · rw [heq] at h
    obtain ⟨y, hy⟩ := h.means_sum hsigned.isSum hc
    obtain ⟨u', w', hu', hw', hs⟩ := hsigned.means_iff.1 hy
    cases (hu.eval_eq hm).symm.trans (hu'.eval_eq hm)
    cases (hw.eval_eq hm).symm.trans (hw'.eval_eq hm)
    exact hs.type_eq.1.trans (hs.type_eq.2.symm.trans (Value.type_scaleBy x w))

end Joined

end Expr

namespace RuleMatch

open TraceCalculus.Expr (Means Stands)

variable {S : Type} [ExactScalar S] {env : Environment S} {stage : Stage} {e : Expr S}
  {m : RuleMatch S} {v : Value S}

/-- The terms that the rule joins, if it joins any, have one type, or one of them is the zero
element. -/
def Joins (env : Environment S) (m : RuleMatch S) : Prop :=
  ∀ a b c, m.rule.replacement.joinedTerms? = some (a, b, c) →
    a.subst m.assignment = .null ∨ b.subst m.assignment = .null ∨
      ∀ u w, (a.subst m.assignment).eval env = .ok u →
        (b.subst m.assignment).eval env = .ok w → u.type = w.type

theorem joins_iff (hv : env.mode = .value) {a b c : Expr S} {u w : Value S}
    (hj : m.rule.replacement.joinedTerms? = some (a, b, c))
    (ha : Stands (.ofEnv env) (a.subst m.assignment) u)
    (hb : Stands (.ofEnv env) (b.subst m.assignment) w) :
    m.Joins env ↔ a.subst m.assignment = .null ∨ b.subst m.assignment = .null ∨
      u.type = w.type := by
  by_cases hna : a.subst m.assignment = .null
  · refine ⟨fun _ => .inl hna, fun _ a' b' c' hj' => ?_⟩
    cases hj.symm.trans hj'
    exact .inl hna
  by_cases hnb : b.subst m.assignment = .null
  · refine ⟨fun _ => .inr (.inl hnb), fun _ a' b' c' hj' => ?_⟩
    cases hj.symm.trans hj'
    exact .inr (.inl hnb)
  -- neither is the zero element, so what they stand for is what they evaluate to
  have hu := (ha.means (Expr.isNull_eq_false hna)).eval_eq hv
  have hw := (hb.means (Expr.isNull_eq_false hnb)).eval_eq hv
  constructor
  · intro h
    obtain h | h | h := h a b c hj
    · exact absurd h hna
    · exact absurd h hnb
    · exact .inr (.inr (h u w hu hw))
  · rintro (h | h | h)
    · exact absurd h hna
    · exact absurd h hnb
    · intro a' b' c' hj'
      cases hj.symm.trans hj'
      refine .inr (.inr fun u' w' hu' hw' => ?_)
      cases hu.symm.trans hu'
      cases hw.symm.trans hw'
      exact h

theorem not_hollow_factor {a b c : Expr S} {z : Value S} (hm : m ∈ ruleMatches e stage.rules)
    (hj : m.rule.replacement.joinedTerms? = some (a, b, c))
    (hz : Means (.ofEnv env) (c.instantiate m.assignment) z) : ¬ (c.subst m.assignment).Hollow := by
  obtain ⟨hr, hmatch⟩ := mem_ruleMatches hm
  obtain ⟨rfl, hd⟩ := Stage.joinedTerms_factor hr hj (Expr.faces_of_matchAgainst hmatch)
  -- the factor is a variable of the rule, so the two instances of it are one
  exact hz.not_hollow hd

/-- A rule gives an expression of the same value, which again joins no scalar with a matrix, exactly
if what it joins has one type. -/
theorem output_keeps_value_iff (hv : env.mode = .value) (hm : m ∈ ruleMatches e stage.rules)
    (hr : e.Regular env) (he : e.eval env = .ok v) :
    (m.output.Regular env ∧ m.output.eval env = .ok v ∨ m.output = .null ∧ v.IsZero) ↔
      m.Joins env := by
  rw [← Expr.means_ofEnv_iff hv]
  change Stands (.ofEnv env) m.output v ↔ m.Joins env
  obtain ⟨hrule, hmatch⟩ := mem_ruleMatches hm
  have hfill := Stage.fillable_replacement hrule (Expr.faces_of_matchAgainst hmatch)
  have hmeans := (Expr.means_ofEnv_iff hv).2 ⟨hr, he⟩
  rw [← Expr.instantiate_of_matchAgainst hmatch] at hmeans
  rw [m.output_eq]
  obtain ⟨hnone, h⟩ | ⟨x, node, join, hsigned, a, b, c, heq, h⟩ := Stage.rule_cases hrule hmeans
  · refine ⟨fun _ a b c hj => ?_, fun _ => h.subst hfill⟩
    rw [hnone] at hj
    cases hj
  · have hj : m.rule.replacement.joinedTerms? = some (a, b, c) := heq ▸ hsigned.joinedTerms
    rw [heq] at hfill ⊢
    have hmul := hfill.of_mem_children (.head _)
    have hnode := hmul.of_mem_children (.head _)
    obtain ⟨hmema, hmemb⟩ := hsigned.mem_children (a := a) (b := b)
    obtain ⟨s, t, h₁, h₂, hs⟩ := hsigned.means_iff.1 h
    cases h₁ with | trace h₁ ht₁ =>
    cases h₁ with | matMul hu hz _ hp =>
    cases h₂ with | trace h₂ ht₂ =>
    cases h₂ with | matMul hw hz' _ hq =>
    cases (hz.eval_eq hv).symm.trans (hz'.eval_eq hv)
    have hu := hu.subst (hnode.of_mem_children hmema)
    have hw := hw.subst (hnode.of_mem_children hmemb)
    have hc := hz.subst (hmul.of_mem_children (.tail _ (.head _)))
    rw [joins_iff hv hj hu hw, Expr.subst, Expr.subst, hsigned.subst]
    constructor
    · intro h
      exact hsigned.type_eq_of_joined hv h (not_hollow_factor hm hj hz) hu hw
    · exact hsigned.stands_joined id hu hw hc hp ht₁ hq ht₂ hs

/-- The sum of `Tr(G*d(X))` and `Tr(B*d(X))`. -/
def sampleTerms (g : String) : Expr Int :=
  .add (.trace (.matMul (.var g) (.differential (.var "X"))))
    (.trace (.matMul (.var "B") (.differential (.var "X"))))

/-- Values for a scalar, two matrices and a differential. -/
def sampleFactors : Environment Int where
  values := [("a", .scalar 2), ("A", .ofMatrix !![1, 2; 3, 4]), ("B", .ofMatrix !![0, 1; 1, 0]),
    ("d(X)", .ofMatrix !![5, 0; 2, 1])]

theorem regular_sampleTerms (g : String) : (sampleTerms g).Regular sampleFactors := by
  refine ⟨⟨trivial, rfl⟩, ⟨trivial, rfl⟩, fun u w hu hw => ?_⟩
  obtain ⟨_, -, hu⟩ := (Expr.eval_trace_ok rfl).1 hu
  obtain ⟨_, -, hw⟩ := (Expr.eval_trace_ok rfl).1 hw
  rw [Value.isMatrix_of_trace hu, Value.isMatrix_of_trace hw]

theorem output_keeps_value_two_matrices :
    ∃ m ∈ ruleMatches (sampleTerms "A") Stage.collect.rules, m.Joins sampleFactors ∧
      m.output.eval sampleFactors = (sampleTerms "A").eval sampleFactors := by
  have hhead : (ruleMatches (sampleTerms "A") Stage.collect.rules).head?.map RuleMatch.output =
      some (.trace (.matMul (.add (.var "A") (.var "B")) (.differential (.var "X")))) := by
    decide +kernel
  obtain ⟨m, hm, hout⟩ := Option.map_eq_some_iff.1 hhead
  have hmem := List.mem_of_head? hm
  have heval : m.output.eval sampleFactors = .ok (.scalar 15) := by
    rw [hout]
    rfl
  have hreg : m.output.Regular sampleFactors := by
    rw [hout]
    refine ⟨⟨trivial, trivial, fun u w hu hw => ?_⟩, rfl⟩
    cases hu
    cases hw
    rfl
  exact ⟨m, hmem, (output_keeps_value_iff rfl hmem (regular_sampleTerms "A") rfl).1
    (.inl ⟨hreg, heval⟩), heval⟩

/-- A scalar and a matrix are joined, and the value changes. -/
theorem output_misses_value :
    ∃ m ∈ ruleMatches (sampleTerms "a") Stage.collect.rules,
      (sampleTerms "a").Regular sampleFactors ∧
        (sampleTerms "a").eval sampleFactors = .ok (.scalar 14) ∧
        m.output.eval sampleFactors = .ok (.scalar 18) := by
  have hhead : (ruleMatches (sampleTerms "a") Stage.collect.rules).head?.map RuleMatch.output =
      some (.trace (.matMul (.add (.var "a") (.var "B")) (.differential (.var "X")))) := by
    decide +kernel
  obtain ⟨m, hm, hout⟩ := Option.map_eq_some_iff.1 hhead
  refine ⟨m, List.mem_of_head? hm, regular_sampleTerms "a", rfl, ?_⟩
  rw [hout]
  rfl

end RuleMatch

end TraceCalculus
