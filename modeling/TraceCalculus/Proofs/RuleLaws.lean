import TraceCalculus.Proofs.Instances
import TraceCalculus.Canonical.Stage

/-! # The rules keep values

Each rule of the three stages says that every value of one tree is a value of another. The laws
below are these facts, tree by tree; `Stage.rule_cases` puts them together for all rules.

All but the collecting rules hold under every reading. To collect two traces, `Tr(A*C)+Tr(B*C)` to
`Tr((A+B)*C)`, the two copies of `C` have to have the same value, and `A` and `B` have to be of one
type, since `A+B` has to have a value (`Expr.Joinable`). The second does not follow from the first:
one of them may be a scalar and the other a matrix.
-/

set_option autoImplicit false

namespace TraceCalculus

variable {S : Type} [ExactScalar S] {I : Reading S}

namespace Expr

namespace Means

variable {a b c s : Expr S} {v : Value S}

/-! ## Traces -/

theorem trace_rotate (h : Means I (.trace (.matMul a b)) v) :
    Means I (.trace (.matMul b a)) v := by
  cases h with | trace h ht =>
  cases h with | matMul ha hb hk hm =>
  obtain ⟨q, hq, ht'⟩ := Value.trace_mul_comm hm ht
  exact .trace (.matMul hb ha (fun hs => (hk hs).symm) hq) ht'

theorem trace_add (h : Means I (.trace (.add a b)) v) : Means I (.add (.trace a) (.trace b)) v := by
  cases h with | trace h ht =>
  cases h with | add ha hb hs =>
  obtain ⟨p, q, hp, hq, hr⟩ := hs.trace ht
  exact .add (.trace ha hp) (.trace hb hq) hr

theorem trace_sub (h : Means I (.trace (.sub a b)) v) : Means I (.sub (.trace a) (.trace b)) v := by
  cases h with | trace h ht =>
  cases h with | sub ha hb hs =>
  obtain ⟨p, q, hp, hq, hr⟩ := hs.trace ht
  exact .sub (.trace ha hp) (.trace hb hq) hr

theorem trace_matMul_transpose (h : Means I (.trace (.matMul a (.transpose b))) v) :
    Means I (.trace (.matMul (.transpose a) b)) v := by
  cases h with | trace h ht =>
  cases h with | matMul ha hb hk hm =>
  cases hb with | transpose hb =>
  obtain ⟨q, hq, ht'⟩ := Value.trace_mul_transpose hm ht
  exact .trace (.matMul (.transpose ha) hb (fun hs => by simpa using hk hs) hq) ht'

theorem trace_transpose (h : Means I (.trace (.transpose a)) v) : Means I (.trace a) v := by
  cases h with | trace h ht =>
  cases h with | transpose ha =>
  have ht' := Value.trace_transpose ht
  rw [Value.transpose_transpose] at ht'
  exact .trace ha ht'

theorem trace_scale (h : Means I (.trace (.scale s a)) v) : Means I (.scale s (.trace a)) v := by
  cases h with | trace h ht =>
  cases h with | scale hk hs ha =>
  obtain ⟨t, ht', rfl⟩ := Value.trace_of_scaleBy ht
  exact .scale hk hs (.trace ha ht')

/-! ## Products -/

theorem add_matMul (h : Means I (.matMul (.add a b) c) v) :
    Means I (.add (.matMul a c) (.matMul b c)) v := by
  cases h with | matMul hab hc hk hm =>
  cases hab with | add ha hb hs =>
  obtain ⟨p, q, hp, hq, hr⟩ := hs.mul_right hm
  refine .add (.matMul ha hc (fun h => ?_) hp) (.matMul hb hc (fun h => ?_) hq) hr
  · rw [hs.isMatrix_eq.1]
    exact hk h
  · rw [hs.isMatrix_eq.2]
    exact hk h

theorem matMul_add (h : Means I (.matMul a (.add b c)) v) :
    Means I (.add (.matMul a b) (.matMul a c)) v := by
  cases h with | matMul ha hbc hk hm =>
  cases hbc with | add hb hc hs =>
  obtain ⟨p, q, hp, hq, hr⟩ := hs.mul_left hm
  refine .add (.matMul ha hb (fun h => ?_) hp) (.matMul ha hc (fun h => ?_) hq) hr
  · rw [hs.isMatrix_eq.1]
    exact hk h
  · rw [hs.isMatrix_eq.2]
    exact hk h

theorem sub_matMul (h : Means I (.matMul (.sub a b) c) v) :
    Means I (.sub (.matMul a c) (.matMul b c)) v := by
  cases h with | matMul hab hc hk hm =>
  cases hab with | sub ha hb hs =>
  obtain ⟨p, q, hp, hq, hr⟩ := hs.mul_right hm
  refine .sub (.matMul ha hc (fun h => ?_) hp) (.matMul hb hc (fun h => ?_) hq) hr
  · rw [hs.isMatrix_eq.1]
    exact hk h
  · rw [hs.isMatrix_eq.2]
    exact hk h

theorem matMul_sub (h : Means I (.matMul a (.sub b c)) v) :
    Means I (.sub (.matMul a b) (.matMul a c)) v := by
  cases h with | matMul ha hbc hk hm =>
  cases hbc with | sub hb hc hs =>
  obtain ⟨p, q, hp, hq, hr⟩ := hs.mul_left hm
  refine .sub (.matMul ha hb (fun h => ?_) hp) (.matMul ha hc (fun h => ?_) hq) hr
  · rw [hs.isMatrix_eq.1]
    exact hk h
  · rw [hs.isMatrix_eq.2]
    exact hk h

theorem matMul_assoc (h : Means I (.matMul a (.matMul b c)) v) :
    Means I (.matMul (.matMul a b) c) v := by
  cases h with | matMul ha hbc hk hm =>
  cases hbc with | matMul hb hc hk' hm' =>
  obtain ⟨q, hq, hq'⟩ := Value.mul_assoc_left hm' hm
  refine .matMul (.matMul ha hb (fun h => ⟨(hk h).1, (hk' h).1⟩) hq) hc (fun h => ?_) hq'
  exact ⟨by rw [Value.isMatrix_of_mul hq, (hk h).1, Bool.true_or], (hk' h).2⟩

theorem trace_matMul_assoc (h : Means I (.trace (.matMul a (.matMul b c))) v) :
    Means I (.trace (.matMul (.matMul a b) c)) v := by
  cases h with | trace h ht => exact .trace h.matMul_assoc ht

/-! ## Transposes -/

theorem transpose_matMul (h : Means I (.transpose (.matMul a b)) v) :
    Means I (.matMul (.transpose b) (.transpose a)) v := by
  cases h with | transpose h =>
  cases h with | matMul ha hb hk hm =>
  exact .matMul (.transpose hb) (.transpose ha) (fun hs => by simpa using (hk hs).symm)
    (Value.transpose_mul hm)

theorem transpose_add (h : Means I (.transpose (.add a b)) v) :
    Means I (.add (.transpose a) (.transpose b)) v := by
  cases h with | transpose h =>
  cases h with | add ha hb hs => exact .add (.transpose ha) (.transpose hb) hs.transpose

theorem transpose_sub (h : Means I (.transpose (.sub a b)) v) :
    Means I (.sub (.transpose a) (.transpose b)) v := by
  cases h with | transpose h =>
  cases h with | sub ha hb hs => exact .sub (.transpose ha) (.transpose hb) hs.transpose

theorem transpose_scale (h : Means I (.transpose (.scale s a)) v) :
    Means I (.scale s (.transpose a)) v := by
  cases h with | transpose h =>
  cases h with | scale hk hs ha =>
  rw [Value.transpose_scaleBy]
  exact .scale hk hs (.transpose ha)

/-! ## Collecting -/

theorem scale_trace_matMul (h : Means I (.scale s (.trace (.matMul a c))) v) :
    Means I (.trace (.matMul (.scale s a) c)) v := by
  cases h with | scale hk hs h =>
  cases h with | trace h ht =>
  cases h with | matMul ha hc hk' hm =>
  exact .trace (.matMul (.scale hk hs ha) hc (fun h => by simpa using hk' h)
    (Value.scaleBy_mul _ hm)) (Value.trace_scaleBy _ ht)

end Means

/-- `node` is a sum or a difference, `join` is how it is built, and the second operand counts `x`
times. -/
inductive Signed : S → (Expr S → Expr S → Expr S) → (Expr S → Expr S → Expr S) → Prop
  | sum : Signed 1 .add fun a b => a + b
  | difference : Signed (-1) .sub fun a b => a - b

namespace Signed

variable {x : S} {node join : Expr S → Expr S → Expr S} {a b c : Expr S}

theorem means_iff (h : Signed x node join) {w : Value S} : Means I (node a b) w ↔
    ∃ u v, Means I a u ∧ Means I b v ∧ Value.Sum u (v.scaleBy x) w := by
  cases h with
  | sum =>
    simp only [Value.scaleBy_one]
    constructor
    · intro h
      cases h with | add ha hb hs => exact ⟨_, _, ha, hb, hs⟩
    · rintro ⟨u, v, ha, hb, hs⟩
      exact .add ha hb hs
  | difference =>
    constructor
    · intro h
      cases h with | sub ha hb hs => exact ⟨_, _, ha, hb, hs⟩
    · rintro ⟨u, v, ha, hb, hs⟩
      exact .sub ha hb hs

theorem instantiate (h : Signed x node join) (σ : Assignment S) :
    (node a b).instantiate σ = node (a.instantiate σ) (b.instantiate σ) := by
  cases h <;> rfl

theorem hasNull (h : Signed x node join) : (node a b).hasNull = (a.hasNull || b.hasNull) := by
  cases h <;> rfl

end Signed

/-- The sum of `a` and `b` can be taken before it is multiplied by `c`. -/
structure Joinable (I : Reading S) (a b c : Expr S) : Prop where
  unique : ∀ w w', Means I c w → Means I c w' → w = w'
  sum : ∀ u v, Means I a u → Means I b v → ∃ z, Value.Sum u v z

theorem Joinable.means {x : S} {node join : Expr S → Expr S → Expr S} {a b c : Expr S}
    {v : Value S} (hj : Joinable I a b c) (hn : Signed x node join)
    (h : Means I (node (.trace (.matMul a c)) (.trace (.matMul b c))) v) :
    Means I (.trace (.matMul (node a b) c)) v := by
  obtain ⟨s, t, ha, hb, hs⟩ := hn.means_iff.1 h
  cases ha with | trace ha ht =>
  cases ha with | matMul ha hc hk hm =>
  cases hb with | trace hb ht' =>
  cases hb with | matMul hb hc' hk' hm' =>
  obtain rfl := hj.unique _ _ hc hc'
  obtain ⟨_, hsum⟩ := hj.sum _ _ ha hb
  obtain ⟨z, hz⟩ := hsum.exists_scaled x
  -- the factor of the second operand scales the second trace
  obtain ⟨y, hy, hty⟩ := hz.trace_mul hm ht (Value.scaleBy_mul x hm') (Value.trace_scaleBy x ht') hs
  refine .trace (.matMul (hn.means_iff.2 ⟨_, _, ha, hb, hz⟩) hc (fun h => ⟨?_, (hk h).2⟩) hy) hty
  rw [← hz.isMatrix_eq.1]
  exact (hk h).1

/-- Where products are those of matrices and the zero element does not occur, traces of products
with one factor can be collected. -/
theorem joinable_of_strict {a b c : Expr S} {s t : Value S} (hs : I.strict)
    (ha : Means I (.trace (.matMul a c)) s) (hb : Means I (.trace (.matMul b c)) t)
    (hna : a.hasNull = false) (hnb : b.hasNull = false)
    (hnc : c.hasNull = false) : Joinable I a b c := by
  refine ⟨fun w w' hw hw' => hw.unique hw' hnc, fun u v hu hv => ?_⟩
  cases ha with | trace ha ht =>
  cases ha with | matMul ha hc hk hm =>
  cases hb with | trace hb ht' =>
  cases hb with | matMul hb hc' hk' hm' =>
  obtain rfl := hc.unique hc' hnc
  obtain rfl := ha.unique hu hna
  obtain rfl := hb.unique hv hnb
  exact Value.exists_sum_of_trace_mul (hk hs).1 (hk' hs).1 (hk hs).2 hm ht hm' ht'

/-- The terms that a replacement of the collecting rules joins, and the factor behind them. -/
def joinedTerms? : Expr S → Option (Expr S × Expr S × Expr S)
  | .trace (.matMul (.add a b) c) | .trace (.matMul (.sub a b) c) => some (a, b, c)
  | _ => none

end Expr

/-! ## All rules -/

namespace Stage

open TraceCalculus.Expr (Means Joinable)

variable {σ : Assignment S} {v : Value S} {rule : Rule S}

theorem means_of_isolating (hr : rule ∈ isolating) (h : Means I (rule.pattern.instantiate σ) v) :
    Means I (rule.replacement.instantiate σ) v := by
  simp only [isolating, List.mem_cons, List.not_mem_nil, or_false] at hr
  rcases hr with rfl | rfl | rfl | rfl | rfl | rfl | rfl | rfl | rfl | rfl | rfl | rfl | rfl | rfl | rfl
  · exact h.trace_rotate
  · exact h.trace_add
  · exact h.trace_sub
  · exact h.trace_matMul_transpose
  · exact h.trace_transpose
  · exact h.add_matMul
  · exact h.matMul_add
  · exact h.sub_matMul
  · exact h.matMul_sub
  · exact h.trace_matMul_assoc
  · exact h.transpose_matMul
  · exact h.transpose_add
  · exact h.transpose_sub
  · exact h.transpose_scale
  · exact h.trace_scale

theorem means_of_normalizing (hr : rule ∈ normalizing)
    (h : Means I (rule.pattern.instantiate σ) v) : Means I (rule.replacement.instantiate σ) v := by
  simp only [normalizing, List.mem_cons, List.not_mem_nil, or_false] at hr
  rcases hr with rfl | rfl | rfl | rfl | rfl
  · exact h.matMul_assoc
  · exact h.transpose_matMul
  · exact h.transpose_add
  · exact h.transpose_sub
  · exact h.trace_transpose

/-- What the rule matches is the sum or difference of two traces, which the rule joins. -/
def JoinsTraces (I : Reading S) (σ : Assignment S) (rule : Rule S) (v : Value S) : Prop :=
  ∃ x node join, Expr.Signed x node join ∧ ∃ a b c,
    rule.replacement = .trace (.matMul (node a b) c) ∧
      Means I (node ((Expr.trace (.matMul a c)).instantiate σ)
        ((Expr.trace (.matMul b c)).instantiate σ)) v

/-- A collecting rule splits a trace, or it joins two traces once the factors are moved inside. -/
theorem collecting_cases (hr : rule ∈ collecting) (h : Means I (rule.pattern.instantiate σ) v) :
    rule.replacement.joinedTerms? = none ∧ Means I (rule.replacement.instantiate σ) v ∨
      JoinsTraces I σ rule v := by
  simp only [collecting, List.mem_cons, List.not_mem_nil, or_false] at hr
  rcases hr with rfl | rfl | rfl | rfl | rfl | rfl | rfl | rfl | rfl | rfl
  · exact .inr ⟨_, _, _, .sum, _, _, _, rfl, h⟩
  · exact .inr ⟨_, _, _, .difference, _, _, _, rfl, h⟩
  · cases h with | add ha hb hs =>
    exact .inr ⟨_, _, _, .sum, _, _, _, rfl, .add ha.scale_trace_matMul hb hs⟩
  · cases h with | add ha hb hs =>
    exact .inr ⟨_, _, _, .sum, _, _, _, rfl, .add ha hb.scale_trace_matMul hs⟩
  · cases h with | add ha hb hs =>
    exact .inr ⟨_, _, _, .sum, _, _, _, rfl, .add ha.scale_trace_matMul hb.scale_trace_matMul hs⟩
  · cases h with | sub ha hb hs =>
    exact .inr ⟨_, _, _, .difference, _, _, _, rfl, .sub ha.scale_trace_matMul hb hs⟩
  · cases h with | sub ha hb hs =>
    exact .inr ⟨_, _, _, .difference, _, _, _, rfl, .sub ha hb.scale_trace_matMul hs⟩
  · cases h with | sub ha hb hs =>
    exact .inr ⟨_, _, _, .difference, _, _, _, rfl,
      .sub ha.scale_trace_matMul hb.scale_trace_matMul hs⟩
  · exact .inl ⟨rfl, h.trace_add⟩
  · exact .inl ⟨rfl, h.trace_sub⟩

omit [ExactScalar S] in
theorem mem_rules {stage : Stage} (hr : rule ∈ stage.rules) :
    rule ∈ isolating ∨ rule ∈ normalizing ∨ rule ∈ collecting := by
  cases stage <;> simp only [rules, List.mem_append] at hr <;> tauto

/-- What a rule matches has the values of its replacement, or the rule joins two traces. -/
theorem rule_cases {stage : Stage} (hr : rule ∈ stage.rules)
    (h : Means I (rule.pattern.instantiate σ) v) :
    rule.replacement.joinedTerms? = none ∧ Means I (rule.replacement.instantiate σ) v ∨
      JoinsTraces I σ rule v := by
  rcases mem_rules hr with hr | hr | hr
  · refine .inl ⟨?_, means_of_isolating hr h⟩
    simp only [isolating, List.mem_cons, List.not_mem_nil, or_false] at hr
    rcases hr with rfl | rfl | rfl | rfl | rfl | rfl | rfl | rfl | rfl | rfl | rfl | rfl | rfl | rfl |
      rfl <;> rfl
  · refine .inl ⟨?_, means_of_normalizing hr h⟩
    simp only [normalizing, List.mem_cons, List.not_mem_nil, or_false] at hr
    rcases hr with rfl | rfl | rfl | rfl | rfl <;> rfl
  · exact collecting_cases hr h

omit [ExactScalar S] in
/-- A property of all rules, shown rule by rule. -/
theorem forall_rules {P : Rule S → Prop} (hi : ∀ rule ∈ isolating, P rule)
    (hn : ∀ rule ∈ normalizing, P rule) (hc : ∀ rule ∈ collecting, P rule) {stage : Stage}
    (hr : rule ∈ stage.rules) : P rule := by
  rcases mem_rules hr with hr | hr | hr
  · exact hi rule hr
  · exact hn rule hr
  · exact hc rule hr

omit [ExactScalar S] in
/-- A replacement has no variable that its pattern does not have. -/
theorem hasNull_replacement {stage : Stage} (hr : rule ∈ stage.rules)
    (h : (rule.pattern.instantiate σ).hasNull = false) :
    (rule.replacement.instantiate σ).hasNull = false := by
  revert h
  refine forall_rules (P := fun rule => (rule.pattern.instantiate σ).hasNull = false →
    (rule.replacement.instantiate σ).hasNull = false) ?_ ?_ ?_ hr <;>
    simp +contextual [isolating, normalizing, collecting, Expr.instantiate, Expr.hasNull]

omit [ExactScalar S] in
theorem hasDifferential_replacement {stage : Stage} (hr : rule ∈ stage.rules) :
    rule.replacement.hasDifferential = false := by
  refine forall_rules (P := fun rule => rule.replacement.hasDifferential = false) ?_ ?_ ?_ hr <;>
    simp [isolating, normalizing, collecting, Expr.hasDifferential, Expr.contains, Expr.kind]

omit [ExactScalar S] in
theorem letterFactors_replacement {stage : Stage} (hr : rule ∈ stage.rules) :
    rule.replacement.LetterFactors := by
  refine forall_rules (P := fun rule => rule.replacement.LetterFactors) ?_ ?_ ?_ hr <;>
    simp [isolating, normalizing, collecting, Expr.LetterFactors]

omit [ExactScalar S] in
theorem faces_replacement {stage : Stage} (hr : rule ∈ stage.rules) (hf : rule.pattern.Faces σ) :
    rule.replacement.Faces σ := by
  revert hf
  refine forall_rules (P := fun rule => rule.pattern.Faces σ → rule.replacement.Faces σ)
    ?_ ?_ ?_ hr <;>
    simp +contextual [isolating, normalizing, collecting, Expr.Faces]

omit [ExactScalar S] in
theorem fillable_replacement {stage : Stage} (hr : rule ∈ stage.rules)
    (hf : rule.pattern.Faces σ) : rule.replacement.Fillable σ where
  letterFactors := letterFactors_replacement hr
  hasDifferential := hasDifferential_replacement hr
  faces := faces_replacement hr hf

omit [ExactScalar S] in
/-- No rule is about a leaf, a differential or a scaled expression. -/
theorem kind_pattern (σ : Assignment S) {stage : Stage} (hr : rule ∈ stage.rules) :
    (rule.pattern.instantiate σ).kind ∈
      [Expr.Kind.add, .sub, .matMul, .trace, .transpose] := by
  refine forall_rules (P := fun rule => (rule.pattern.instantiate σ).kind ∈ _) ?_ ?_ ?_ hr <;>
    simp [isolating, normalizing, collecting, Expr.instantiate, Expr.kind]

omit [ExactScalar S] in
/-- The factor behind joined terms is one letter, which has taken something with a differential. -/
theorem joinedTerms_factor {stage : Stage} (hr : rule ∈ stage.rules) {a b c : Expr S}
    (hj : rule.replacement.joinedTerms? = some (a, b, c)) (hf : rule.pattern.Faces σ) :
    c = Letter.C ∧ (c.instantiate σ).hasDifferential = true := by
  have hr' : rule ∈ collecting := by
    revert hj
    refine forall_rules (P := fun rule => rule.replacement.joinedTerms? = some (a, b, c) →
      rule ∈ collecting) ?_ ?_ (fun _ hr _ => hr) hr <;>
      simp [isolating, normalizing, Expr.joinedTerms?]
  simp only [collecting, List.mem_cons, List.not_mem_nil, or_false] at hr'
  rcases hr' with rfl | rfl | rfl | rfl | rfl | rfl | rfl | rfl | rfl | rfl <;> cases hj <;>
    exact ⟨rfl, by simp_all [Expr.Faces]⟩

/-- Rules keep the values of expressions without the zero element, where products are those of
matrices. -/
theorem means_of_rule_strict {stage : Stage} (hr : rule ∈ stage.rules) (hs : I.strict)
    (h : Means I (rule.pattern.instantiate σ) v)
    (hn : (rule.pattern.instantiate σ).hasNull = false) :
    Means I (rule.replacement.instantiate σ) v := by
  have hn' := hasNull_replacement hr hn
  obtain ⟨-, h⟩ | ⟨x, node, join, hsigned, a, b, c, heq, h⟩ := rule_cases hr h
  · exact h
  · rw [heq] at hn' ⊢
    simp only [Expr.instantiate, hsigned.instantiate, Expr.hasNull, hsigned.hasNull,
      Bool.or_eq_false_iff] at hn' ⊢
    obtain ⟨⟨ha, hb⟩, hc⟩ := hn'
    obtain ⟨s, t, h₁, h₂, -⟩ := hsigned.means_iff.1 h
    exact (Expr.joinable_of_strict hs h₁ h₂ ha hb hc).means hsigned h

end Stage

omit [ExactScalar S] in
/-- What a rule makes of an expression, beside the instance of its replacement. -/
theorem RuleMatch.filled_output [Scalar S] [CongruentScalar S] {stage : Stage} {e : Expr S}
    {m : RuleMatch S} (hm : m ∈ ruleMatches e stage.rules) :
    Expr.Filled (fun _ => True) (m.rule.replacement.instantiate m.assignment) m.output := by
  obtain ⟨hr, hmatch⟩ := mem_ruleMatches hm
  rw [m.output_eq]
  exact Expr.filled_subst (fun _ _ => trivial) (fun _ _ _ => trivial)
    (Stage.fillable_replacement hr (Expr.faces_of_matchAgainst hmatch))

end TraceCalculus
