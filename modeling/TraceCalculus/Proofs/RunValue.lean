import TraceCalculus.Proofs.RuleLaws
import TraceCalculus.Proofs.RunRules
import TraceCalculus.Proofs.Typing

/-! # Canonicalization keeps the value

`Canonical.Keeps I e r` says that `r` may take the place of `e`: it has every value of `e` under a
reading that keeps types, and it is the zero element or free of it. The rest of the structure is
what makes the relation go through a run (`respected_keeps`): a variable stays, so that a
differential is still one of a variable, a scalar stays a scalar, so that it is still a factor, and
what vanishes becomes the zero element.

Only operands that are free of the zero element meet the collecting rules, because operands are
settled before rules are applied; this holds at every point of a run, also where it is cut short.
-/

set_option autoImplicit false

namespace TraceCalculus

namespace Expr

variable {S : Type}

/-! ## Expressions without a zero element inside -/

/-- The expression is the zero element, or free of it. -/
def Tidy (e : Expr S) : Prop := e = .null ∨ e.hasNull = false

theorem Tidy.hasNull_eq_false {e : Expr S} (h : e.Tidy) (he : e.isNull = false) :
    e.hasNull = false := by
  rcases h with rfl | h
  · cases he
  · exact h

theorem Tidy.of_scale {s b : Expr S} (h : (scale s b).Tidy) : s.Tidy ∧ b.Tidy := by
  have h' := h.hasNull_eq_false rfl
  simp only [hasNull, Bool.or_eq_false_iff] at h'
  exact ⟨.inr h'.1, .inr h'.2⟩

theorem Tidy.eq_null_of_vanishes {e : Expr S} (h : e.Tidy) (hv : e.Vanishes) : e = .null := by
  rcases h with rfl | h
  · rfl
  · rw [hv.hasNull_eq_true] at h
    cases h

theorem Tidy.traced {e : Expr S} (h : e.Tidy) : e.traced.Tidy := by
  unfold Expr.traced
  split
  · exact .inl rfl
  · split
    · exact h
    · rename_i hne _
      have h' := h.hasNull_eq_false (isNull_eq_false hne)
      exact .inr (by simpa [hasNull] using h')

theorem Tidy.transposed {e : Expr S} (h : e.Tidy) : e.transposed.Tidy := by
  unfold Expr.transposed
  split
  · exact .inl rfl
  · have h' := h.hasNull_eq_false rfl
    exact .inr (by simpa [hasNull] using h')
  · exact h
  · split
    · exact h
    · rename_i hne _ _ _
      have h' := h.hasNull_eq_false (isNull_eq_false hne)
      exact .inr (by simpa [hasNull] using h')

variable [ExactScalar S]

theorem Product.tidy {a b c : Expr S} (h : Product a b c) (ha : a.Tidy) (hb : b.Tidy) : c.Tidy := by
  induction h with
  | nullLeft | nullRight => exact .inl rfl
  | fold => exact .inr rfl
  | oneLeft => exact hb
  | oneRight => exact ha
  | swap _ _ _ _ ih => exact ih hb ha
  | mergeLeft _ _ _ _ iht ihc => exact ihc (iht ha hb.of_scale.1) hb.of_scale.2
  | mergeRight _ _ _ _ _ iht ihc => exact ihc (iht ha.of_scale.1 hb) ha.of_scale.2
  | mergeBoth _ _ _ _ _ _ iht ihm ihc =>
    exact ihc (iht ha.of_scale.1 hb.of_scale.1) (ihm ha.of_scale.2 hb.of_scale.2)
  | hoistLeft _ _ _ _ _ _ ihm ihc => exact ihc ha.of_scale.1 (ihm ha.of_scale.2 hb)
  | hoistRight _ _ _ _ _ _ ihm ihc => exact ihc hb.of_scale.1 (ihm ha hb.of_scale.2)
  | scaleLeft hp | scaleRight hp | matMul hp =>
    have ha' := ha.hasNull_eq_false hp.left
    have hb' := hb.hasNull_eq_false hp.right
    exact .inr (by simp [hasNull, ha', hb'])

theorem Tidy.times {a b : Expr S} (ha : a.Tidy) (hb : b.Tidy) : (a * b).Tidy :=
  (product_times a b).tidy ha hb

theorem Tidy.plus {a b : Expr S} (ha : a.Tidy) (hb : b.Tidy) : (a + b).Tidy := by
  change (Expr.plus a b).Tidy
  unfold Expr.plus
  split
  case h_1 => exact hb
  case h_2 => exact ha
  case h_3 => exact .inr rfl
  case h_4 na nb _ =>
    split
    case isTrue => exact Tidy.times (a := .literal Scalar.two) (.inr rfl) ha
    case isFalse =>
      have ha' := ha.hasNull_eq_false (isNull_eq_false na)
      have hb' := hb.hasNull_eq_false (isNull_eq_false nb)
      exact .inr (by simp [hasNull, ha', hb'])

theorem Tidy.minus {a b : Expr S} (ha : a.Tidy) (hb : b.Tidy) : (a - b).Tidy := by
  change (Expr.minus a b).Tidy
  unfold Expr.minus
  split
  case h_1 => exact ha
  case h_2 => exact Tidy.times (a := .literal (-1)) (.inr rfl) hb
  case h_3 na nb =>
    split
    case isTrue => exact .inl rfl
    case isFalse =>
      split
      case h_1 => exact .inr rfl
      case h_2 =>
        have ha' := ha.hasNull_eq_false (isNull_eq_false na)
        have hb' := hb.hasNull_eq_false (isNull_eq_false nb)
        exact .inr (by simp [hasNull, ha', hb'])

theorem Filled.tidy {P : Expr S → Prop} {a b : Expr S} (h : Filled P a b)
    (hn : a.hasNull = false) : b.Tidy := by
  induction h with
  | kept => exact .inr hn
  | add _ _ iha ihb =>
    simp only [hasNull, Bool.or_eq_false_iff] at hn
    exact (iha hn.1).plus (ihb hn.2)
  | sub _ _ iha ihb =>
    simp only [hasNull, Bool.or_eq_false_iff] at hn
    exact (iha hn.1).minus (ihb hn.2)
  | scale _ _ _ ihb =>
    simp only [hasNull, Bool.or_eq_false_iff] at hn
    exact Tidy.times (.inr hn.1) (ihb hn.2)
  | matMul _ _ iha ihb =>
    simp only [hasNull, Bool.or_eq_false_iff] at hn
    exact (iha hn.1).times (ihb hn.2)
  | trace _ iha => exact (iha hn).traced
  | transpose _ iha => exact (iha hn).transposed

end Expr

namespace Canonical

open TraceCalculus.Expr (Means Tidy)

variable {S : Type} [ExactScalar S] {I : Reading S}

/-- `r` may take the place of `e` in a run. -/
structure Keeps (I : Reading S) (e r : Expr S) : Prop where
  means : ∀ v, Means I e v → Means I r v
  name : ∀ name, e.name? = some name → r = e
  scalar : e.isScalar = true → r.isScalar = true
  tidy : r.Tidy
  vanishes : e.Vanishes → r = .null

theorem Keeps.trans {a b c : Expr S} (h : Keeps I a b) (h' : Keeps I b c) : Keeps I a c where
  means v hv := h'.means v (h.means v hv)
  name n hn := by
    have hb := h.name n hn
    rw [hb] at h'
    exact h'.name n hn
  scalar hs := h'.scalar (h.scalar hs)
  tidy := h'.tidy
  vanishes hv := by
    have hb := h.vanishes hv
    rw [hb] at h'
    exact h'.vanishes trivial

theorem keeps_self {e : Expr S} (h : e.Tidy) : Keeps I e e :=
  ⟨fun _ hv => hv, fun _ _ => rfl, fun hs => hs, h, h.eq_null_of_vanishes⟩

/-- A node built again over operands that may take the place of its own. -/
theorem keeps_of_rebuilt (hnull : ∀ v, v.IsZero → I.null v) {e r : Expr S}
    (h : Rebuilt (Keeps I) e r) : Keeps I e r := by
  cases h with
  | var name | scalarVar name | literal x => exact keeps_self (.inr rfl)
  | null => exact keeps_self (.inl rfl)
  | @differential a a' ha =>
    refine ⟨fun v hv => ?_, by rintro _ ⟨⟩, by rintro ⟨⟩, ?_, by rintro ⟨⟩⟩
    · cases hv with
      | differential hn hd =>
        rw [ha.name _ hn, Expr.asOperand_exact]
        exact .differential hn hd
    · exact .inr rfl
  | add ha hb =>
    refine ⟨fun v hv => ?_, by rintro _ ⟨⟩, by rintro ⟨⟩, ha.tidy.plus hb.tidy, fun hv => ?_⟩
    · cases hv with
      | add hu hw hs =>
        exact ((ha.means _ hu).stands.plus (hb.means _ hw).stands hs).means_of_null hnull
    · rw [ha.vanishes hv.1, hb.vanishes hv.2]
      rfl
  | sub ha hb =>
    refine ⟨fun v hv => ?_, by rintro _ ⟨⟩, by rintro ⟨⟩, ha.tidy.minus hb.tidy, fun hv => ?_⟩
    · cases hv with
      | sub hu hw hs =>
        exact ((ha.means _ hu).stands.minus (hb.means _ hw).stands hs).means_of_null hnull
    · rw [ha.vanishes hv.1, hb.vanishes hv.2]
      rfl
  | @scale a a' b b' ha hb =>
    refine ⟨fun v hv => ?_, by rintro _ ⟨⟩, fun hs => ?_, ha.tidy.times hb.tidy, fun hv => ?_⟩
    · cases hv with
      | scale hk hu hw =>
        exact (Expr.Stands.scaled (ha.scalar hk) (ha.means _ hu).stands
          (hb.means _ hw).stands).means_of_null hnull
    · simp only [Expr.isScalar, Bool.and_eq_true] at hs
      exact Expr.isScalar_times (ha.scalar hs.1) (hb.scalar hs.2)
    · rw [hb.vanishes hv, Expr.times_null]
  | @matMul a a' b b' ha hb =>
    refine ⟨fun v hv => ?_, by rintro _ ⟨⟩, by rintro ⟨⟩, ha.tidy.times hb.tidy, fun hv => ?_⟩
    · cases hv with
      | matMul hu hw hk hm =>
        exact ((ha.means _ hu).stands.times (hb.means _ hw).stands hm
          fun hs => .inr (.inr (hk hs))).means_of_null hnull
    · rcases hv with hv | hv
      · rw [ha.vanishes hv, Expr.null_times]
      · rw [hb.vanishes hv, Expr.times_null]
  | trace ha =>
    refine ⟨fun v hv => ?_, by rintro _ ⟨⟩, by rintro ⟨⟩, ha.tidy.traced, fun hv => ?_⟩
    · cases hv with
      | trace hu ht => exact ((ha.means _ hu).stands.traced ht).means_of_null hnull
    · rw [ha.vanishes hv]
      rfl
  | transpose ha =>
    refine ⟨fun v hv => ?_, by rintro _ ⟨⟩, by rintro ⟨⟩, ha.tidy.transposed, fun hv => ?_⟩
    · cases hv with
      | transpose hu => exact (ha.means _ hu).stands.transposed.means_of_null hnull
    · rw [ha.vanishes hv]
      rfl

/-- No rule is about the zero element, so what one matches is free of it. -/
theorem hasNull_of_mem_ruleMatches {stage : Stage} {e : Expr S} {m : RuleMatch S} (he : e.Tidy)
    (hm : m ∈ ruleMatches e stage.rules) : e.hasNull = false := by
  obtain ⟨hr, hmatch⟩ := mem_ruleMatches hm
  have hkind := Stage.kind_pattern m.assignment hr
  refine he.hasNull_eq_false (Expr.isNull_eq_false ?_)
  rintro rfl
  rw [Expr.instantiate_of_matchAgainst hmatch] at hkind
  simp [Expr.kind] at hkind

/-- What a rule makes of an expression that is settled below. -/
theorem keeps_of_rule (hs : I.strict) (hnull : ∀ v, v.IsZero → I.null v) {stage : Stage}
    {e : Expr S} {m : RuleMatch S} (he : e.Tidy) (hm : m ∈ ruleMatches e stage.rules) :
    Keeps I e m.output := by
  have hn := hasNull_of_mem_ruleMatches he hm
  obtain ⟨hr, hmatch⟩ := mem_ruleMatches hm
  have hkind := Stage.kind_pattern m.assignment hr
  have hinst := Expr.instantiate_of_matchAgainst hmatch
  have hfilled := RuleMatch.filled_output hm
  rw [← hinst] at hn
  refine ⟨fun v hv => ?_, fun n hn' => ?_, fun hs' => ?_,
    hfilled.tidy (Stage.hasNull_replacement hr hn), fun hv => ?_⟩
  · rw [← hinst] at hv
    exact (hfilled.stands (Stage.means_of_rule_strict hr hs hv hn)).means_of_null hnull
  · rw [hinst] at hkind
    cases e <;> simp_all [Expr.kind, Expr.name?]
  · rw [hinst] at hkind
    cases e <;> simp_all [Expr.kind, Expr.isScalar]
  · rw [hinst] at hn
    rw [hv.hasNull_eq_true] at hn
    cases hn

theorem respected_keeps (hs : I.strict) (hnull : ∀ v, v.IsZero → I.null v) (stage : Stage) :
    Respected (fun _ => True) stage (Keeps I) where
  operand _ _ := trivial
  result _ _ := trivial
  trans := Keeps.trans
  recalled h hr := eq_of_beq h ▸ hr
  self _ h := keeps_self h.tidy
  rebuilt _ := keeps_of_rebuilt hnull
  rule _ h hm := keeps_of_rule hs hnull h.tidy hm

/-- The result of a run, converged or cut short, has the value of the expression it started with.
The value is that of the evaluator, where the zero element stands for a zero of any shape. -/
theorem run_keeps_value {env : Environment S} (hm : env.mode = .value) {e r : Expr S}
    {τ : ValueType} (he : e.HasType env τ) {options : Options} {fuel : Nat}
    (hr : (run options fuel e).outcome.result? = some r) :
    ∃ w, r.eval env = .ok w ∧ (r = .null ∨ w.type = τ) ∧
      ∀ v, e.eval env = .ok v → w = v ∨ r = .null ∧ v.IsZero := by
  have hk : Keeps (.typed env) e r := Respected.run (respected_keeps trivial fun _ h => h) trivial hr
  obtain ⟨w, hw, hew⟩ := he.exists_means
  have hrw := hk.means w hew
  rcases hk.tidy with rfl | hn
  · refine ⟨.scalar 0, rfl, .inl rfl, fun v hv => .inr ⟨rfl, ?_⟩⟩
    rcases he.eval_cases hm hv with ⟨-, hev⟩ | ⟨-, hz, -⟩
    · exact Expr.stands_null_iff.1 (hk.means v hev).stands
    · exact hz
  · refine ⟨w, (hrw.ofEnv_of_typed hn).eval_eq hm, .inr hw, fun v hv => .inl ?_⟩
    rcases he.eval_cases hm hv with ⟨-, hev⟩ | ⟨hc, -, -⟩
    · exact hrw.unique (hk.means v hev) hn
    · rw [hk.vanishes hc] at hn
      cases hn

/-- Values for two constants and a differential. -/
def sampleEnv : Environment Int where
  values := [("A", .ofMatrix !![1, 2; 3, 4]), ("B", .ofMatrix !![0, 1; 1, 0]),
    ("d(X)", .ofMatrix !![5, 0; 2, 1])]

/-- The sum of `Tr(d(X)*(A+0))` and `Tr(d(X)*B)`. -/
def sampleSum : Expr Int :=
  .add (.trace (.matMul (.differential (.var "X")) (.add (.var "A") .null)))
    (.trace (.matMul (.differential (.var "X")) (.var "B")))

/-- A run that is cut short after its first rule. -/
theorem run_keeps_value_cut_short :
    ∃ r, (run { budget := some 1 } 8 sampleSum).outcome.result? = some r ∧
      ∃ w, r.eval sampleEnv = .ok w ∧ (r = .null ∨ w.type = .scalar) ∧
        ∀ v, sampleSum.eval sampleEnv = .ok v → w = v ∨ r = .null ∧ v.IsZero := by
  have hrun : (run { budget := some 1 } 8 sampleSum).outcome.result? =
      some (.add (.trace (.matMul (.var "A") (.differential (.var "X"))))
        (.trace (.matMul (.differential (.var "X")) (.var "B")))) := by
    decide +kernel
  have hX : Expr.HasType sampleEnv (.differential (.var "X")) (.matrix ⟨2, 2⟩) :=
    .differential (v := .ofMatrix !![5, 0; 2, 1]) rfl rfl
  have hA : Expr.HasType sampleEnv (.var "A") (.matrix ⟨2, 2⟩) :=
    .var (v := .ofMatrix !![1, 2; 3, 4]) rfl
  have hB : Expr.HasType sampleEnv (.var "B") (.matrix ⟨2, 2⟩) :=
    .var (v := .ofMatrix !![0, 1; 1, 0]) rfl
  exact ⟨_, hrun, run_keeps_value rfl
    (.add (.trace (hX.matMul (hA.add (.null _)))) (.trace (hX.matMul hB))) hrun⟩

end Canonical

end TraceCalculus
