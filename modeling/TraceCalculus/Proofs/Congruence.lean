import Mathlib.Data.List.Forall2
import TraceCalculus.Canonical.Run
import TraceCalculus.Proofs.ExactScalar
import TraceCalculus.Proofs.TemplateFill

/-! # Expressions that nothing can tell apart

Numbers that compare equal need not be the same number: the two zeros of doubles are an example.
`CongruentScalar` is a type of scalars with an equivalence relation that holds between numbers that
compare equal, and that neither comparisons nor arithmetic can see through. Doubles have one, where
what is not a number is equivalent to itself; for exact scalars it is equality. Both are numeric
(`NumericScalar`): an operand is told from another one by its number only.

Two expressions are congruent (`Expr.Congruent`) if they differ in equivalent literals only. The
constructors that simplify, pattern matching and the choice of a rule make congruent results of
congruent expressions (`Expr.Congruent.times`, `matchFrom_congruent`,
`Canonical.choose_congruent`).
-/

set_option autoImplicit false

namespace TraceCalculus

/-- Scalars with an equivalence that comparisons and arithmetic respect. -/
class CongruentScalar (S : Type) [Scalar S] where
  Equivalent : S → S → Prop
  refl (x : S) : Equivalent x x
  symm {x y : S} : Equivalent x y → Equivalent y x
  trans {x y z : S} : Equivalent x y → Equivalent y z → Equivalent x z
  of_beq {x y : S} : (x == y) = true → Equivalent x y
  of_alike {x y : S} : Scalar.alike x y = true → Equivalent x y
  beq_congr {x x' y y' : S} : Equivalent x x' → Equivalent y y' → (x == y) = (x' == y')
  alike_congr {x x' y y' : S} : Equivalent x x' → Equivalent y y' →
    Scalar.alike x y = Scalar.alike x' y'
  add_congr {x x' y y' : S} : Equivalent x x' → Equivalent y y' → Equivalent (x + y) (x' + y')
  sub_congr {x x' y y' : S} : Equivalent x x' → Equivalent y y' → Equivalent (x - y) (x' - y')
  mul_congr {x x' y y' : S} : Equivalent x x' → Equivalent y y' → Equivalent (x * y) (x' * y')
  anew_congr {x x' : S} : Equivalent x x' → Equivalent (Scalar.anew x) (Scalar.anew x')

/-- Exact scalars are equivalent to themselves only. -/
instance {S : Type} [ExactScalar S] : CongruentScalar S where
  Equivalent := Eq
  refl _ := rfl
  symm := Eq.symm
  trans := Eq.trans
  of_beq h := (ExactScalar.beq_iff _ _).1 h
  of_alike {x y} h := by
    rw [ExactScalar.alike_eq] at h
    exact (ExactScalar.beq_iff x y).1 h
  beq_congr := by rintro x _ y _ rfl rfl; rfl
  alike_congr := by rintro x _ y _ rfl rfl; rfl
  add_congr := by rintro x _ y _ rfl rfl; rfl
  sub_congr := by rintro x _ y _ rfl rfl; rfl
  mul_congr := by rintro x _ y _ rfl rfl; rfl
  anew_congr := by rintro x _ rfl; rfl

/-- Congruent scalars that are told apart as numbers only, also where they are operands. -/
class NumericScalar (S : Type) [Scalar S] extends CongruentScalar S where
  alike_eq (x y : S) : Scalar.alike x y = (x == y)
  anew_eq (x : S) : Scalar.anew x = x

instance {S : Type} [ExactScalar S] : NumericScalar S where
  alike_eq := ExactScalar.alike_eq
  anew_eq := ExactScalar.anew_eq

namespace Expr

open CongruentScalar (Equivalent)

@[simp] theorem asOperand_numeric {S : Type} [Scalar S] [NumericScalar S] (e : Expr S) :
    e.asOperand = e :=
  asOperand_eq_self NumericScalar.anew_eq e

/-- The same expression up to equivalent literals. -/
inductive Congruent {S : Type} [Scalar S] [CongruentScalar S] : Expr S → Expr S → Prop
  | var (name : String) : Congruent (.var name) (.var name)
  | scalarVar (name : String) : Congruent (.scalarVar name) (.scalarVar name)
  | literal {x y : S} (h : Equivalent x y) : Congruent (.literal x) (.literal y)
  | null : Congruent .null .null
  | differential {a a' : Expr S} (ha : Congruent a a') :
      Congruent (.differential a) (.differential a')
  | add {a a' b b' : Expr S} (ha : Congruent a a') (hb : Congruent b b') :
      Congruent (.add a b) (.add a' b')
  | sub {a a' b b' : Expr S} (ha : Congruent a a') (hb : Congruent b b') :
      Congruent (.sub a b) (.sub a' b')
  | scale {a a' b b' : Expr S} (ha : Congruent a a') (hb : Congruent b b') :
      Congruent (.scale a b) (.scale a' b')
  | matMul {a a' b b' : Expr S} (ha : Congruent a a') (hb : Congruent b b') :
      Congruent (.matMul a b) (.matMul a' b')
  | trace {a a' : Expr S} (ha : Congruent a a') : Congruent (.trace a) (.trace a')
  | transpose {a a' : Expr S} (ha : Congruent a a') : Congruent (.transpose a) (.transpose a')

variable {S : Type} [Scalar S] [CongruentScalar S] {a a' b b' e : Expr S}

namespace Congruent

theorem refl (e : Expr S) : e.Congruent e := by
  induction e with
  | var | scalarVar | null => constructor
  | literal x => exact .literal (CongruentScalar.refl x)
  | differential _ ih | trace _ ih | transpose _ ih => constructor; exact ih
  | add _ _ iha ihb | sub _ _ iha ihb | scale _ _ iha ihb | matMul _ _ iha ihb =>
    constructor <;> assumption

theorem symm (h : a.Congruent b) : b.Congruent a := by
  induction h with
  | literal h => exact .literal (CongruentScalar.symm h)
  | _ => constructor <;> assumption

theorem trans (h : a.Congruent b) (h' : b.Congruent e) : a.Congruent e := by
  induction h generalizing e with
  | literal h =>
    cases h'
    exact .literal (CongruentScalar.trans h ‹_›)
  | var | scalarVar | null => exact h'
  | differential _ ih | trace _ ih | transpose _ ih =>
    cases h'
    constructor
    exact ih ‹_›
  | add _ _ iha ihb | sub _ _ iha ihb | scale _ _ iha ihb | matMul _ _ iha ihb =>
    cases h'
    constructor
    · exact iha ‹_›
    · exact ihb ‹_›

theorem sameOperand (ha : a.Congruent a') (hb : b.Congruent b') :
    a.sameOperand b = a'.sameOperand b' := by
  induction ha generalizing b b' with
  | var | scalarVar | null => cases hb <;> rfl
  | literal h =>
    cases hb <;> try rfl
    exact CongruentScalar.alike_congr h ‹_›
  | differential _ ih | trace _ ih | transpose _ ih =>
    cases hb <;> try rfl
    exact ih ‹_›
  | add _ _ iha ihb | sub _ _ iha ihb | scale _ _ iha ihb | matMul _ _ iha ihb =>
    cases hb <;> try rfl
    simp only [Expr.sameOperand]
    rw [iha ‹_›, ihb ‹_›]

/-- Comparisons do not tell congruent expressions apart. -/
theorem beq (ha : a.Congruent a') (hb : b.Congruent b') : (a == b) = (a' == b') := by
  change a.same b = a'.same b'
  -- Literals at the root are compared as numbers, all others as operands.
  have h := ha.sameOperand hb
  cases ha <;> cases hb <;> try exact h
  exact CongruentScalar.beq_congr ‹_› ‹_›

theorem of_sameOperand (h : a.sameOperand b = true) : a.Congruent b := by
  induction a generalizing b with
  | var | scalarVar =>
    cases b <;> simp only [Expr.sameOperand, beq_iff_eq] at h <;> try cases h
    constructor
  | null => cases b <;> first | constructor | cases h
  | literal x =>
    cases b <;> try cases h
    exact .literal (CongruentScalar.of_alike h)
  | differential _ ih | trace _ ih | transpose _ ih =>
    cases b <;> try cases h
    constructor
    exact ih h
  | add _ _ iha ihb | sub _ _ iha ihb | scale _ _ iha ihb | matMul _ _ iha ihb =>
    cases b <;> simp only [Expr.sameOperand, Bool.and_eq_true] at h <;> try cases h
    constructor
    · exact iha ‹_›
    · exact ihb ‹_›

theorem of_beq (h : (a == b) = true) : a.Congruent b := by
  change a.same b = true at h
  cases a <;> try exact of_sameOperand h
  cases b <;> try exact of_sameOperand h
  exact .literal (CongruentScalar.of_beq h)

/-! ## Constructors -/

theorem isScalar_eq (h : a.Congruent b) : a.isScalar = b.isScalar := by
  induction h with
  | scale _ _ iha ihb => simp only [isScalar, iha, ihb]
  | _ => rfl

theorem contains_eq (k : Kind) (h : a.Congruent b) : a.contains k = b.contains k := by
  induction h with
  | var | scalarVar | literal | null => rfl
  | differential _ ih | trace _ ih | transpose _ ih => simp only [contains, ih]
  | add _ _ iha ihb | sub _ _ iha ihb | scale _ _ iha ihb | matMul _ _ iha ihb =>
    simp only [contains, iha, ihb]

theorem isNull_eq (h : a.Congruent b) : a.isNull = b.isNull := by
  cases h <;> rfl

theorem spine_eq (h : a.Congruent b) : a.spine = b.spine := by
  induction h with
  | scale _ _ iha ihb => simp only [spine, iha, ihb]
  | _ => rfl

theorem asOperand (h : a.Congruent b) : a.asOperand.Congruent b.asOperand := by
  cases h with
  | literal h => exact .literal (CongruentScalar.anew_congr h)
  | _ => constructor <;> assumption

theorem transposed (h : a.Congruent b) : a.transposed.Congruent b.transposed := by
  have hs := h.isScalar_eq
  cases h with
  | null => exact .null
  | transpose h => exact h
  | trace h => exact .trace h
  | scale ha hb =>
    simp only [Expr.transposed, hs]
    split
    · exact .scale ha hb
    · exact .transpose (.scale ha hb)
  | var | scalarVar | literal | differential | add | sub | matMul =>
    simp only [Expr.transposed, isScalar, if_true, Bool.false_eq_true, if_false]
    repeat first | assumption | constructor

theorem traced (h : a.Congruent b) : a.traced.Congruent b.traced := by
  have hs := h.isScalar_eq
  cases h with
  | null => exact .null
  | scale ha hb =>
    simp only [Expr.traced, hs]
    split
    · exact .scale ha hb
    · exact .trace (.scale ha hb)
  | var | scalarVar | literal | differential | add | sub | matMul | trace | transpose =>
    simp only [Expr.traced, isScalar, if_true, Bool.false_eq_true, if_false]
    repeat first | assumption | constructor

/-- The moves of a product ask which sides are scalars and scaled, and congruent expressions agree
on that. -/
theorem combine {mul : Expr S → Expr S → Expr S}
    (hmul : ∀ {a a' b b'}, a.Congruent a' → b.Congruent b' → (mul a b).Congruent (mul a' b'))
    (ha : a.Congruent a') (hb : b.Congruent b') :
    (combine mul a b).Congruent (combine mul a' b') := by
  unfold Expr.combine
  rw [← ha.isScalar_eq, ← hb.isScalar_eq]
  split
  · cases hb with
    | scale hk hb => exact hmul (hmul ha hk) hb
    | _ => refine .scale ha.asOperand ?_; constructor <;> assumption
  · split
    · cases ha with
      | scale hk ha => exact hmul (hmul hk hb) ha
      | _ => refine .scale hb ?_; constructor <;> assumption
    · cases ha with
      | scale hk ha =>
        cases hb with
        | scale hk' hb => exact hmul (hmul hk hk') (hmul ha hb)
        | _ => refine hmul hk (hmul ha ?_); constructor <;> assumption
      | _ =>
        cases hb with
        | scale hk' hb => refine hmul hk' (hmul ?_ hb); constructor <;> assumption
        | _ => constructor <;> constructor <;> assumption

theorem productStep {mul : Expr S → Expr S → Expr S}
    (hmul : ∀ {a a' b b'}, a.Congruent a' → b.Congruent b' → (mul a b).Congruent (mul a' b'))
    (ha : a.Congruent a') (hb : b.Congruent b') :
    (productStep mul a b).Congruent (productStep mul a' b') := by
  have hcombine := Congruent.combine hmul ha hb
  have hswap := hmul hb ha
  have hone : ∀ {x x' : S}, CongruentScalar.Equivalent x x' → (x == 1) = (x' == 1) :=
    fun h => CongruentScalar.beq_congr h (CongruentScalar.refl 1)
  unfold Expr.productStep
  rw [← ha.isNull_eq, ← hb.isNull_eq]
  split
  · exact .null
  · cases ha with
    | literal hx =>
      cases hb with
      | literal hy => exact .literal (CongruentScalar.mul_congr hx hy)
      | _ =>
        simp only [value?]
        rw [← hone hx]
        split
        · constructor <;> assumption
        · exact hcombine
    | _ =>
      cases hb with
      | literal hy =>
        simp only [value?]
        rw [← hone hy]
        split
        · constructor <;> assumption
        · exact hswap
      | _ => exact hcombine

theorem productWithin (depth : Nat) (ha : a.Congruent a') (hb : b.Congruent b') :
    (productWithin depth a b).Congruent (productWithin depth a' b') := by
  induction depth generalizing a a' b b' with
  | zero => exact .matMul ha hb
  | succ depth ih => exact .productStep ih ha hb

theorem times (ha : a.Congruent a') (hb : b.Congruent b') : (a * b).Congruent (a' * b') := by
  change (Expr.times a b).Congruent (Expr.times a' b')
  unfold Expr.times productDepth
  rw [← ha.spine_eq, ← hb.spine_eq]
  exact .productWithin _ ha hb

theorem plus (ha : a.Congruent a') (hb : b.Congruent b') : (a + b).Congruent (a' + b') := by
  have hsum : (if (a == b) = true then Expr.times (.literal Scalar.two) a
      else Expr.add a.asOperand b.asOperand).Congruent
      (if (a' == b') = true then Expr.times (.literal Scalar.two) a'
        else Expr.add a'.asOperand b'.asOperand) := by
    rw [← ha.beq hb]
    split
    · exact .times (.refl _) ha
    · exact .add ha.asOperand hb.asOperand
  change (Expr.plus a b).Congruent (Expr.plus a' b')
  cases ha with
  | null => exact hb
  | literal hx =>
    cases hb with
    | null => exact .literal hx
    | literal hy => exact .literal (CongruentScalar.add_congr hx hy)
    | _ => exact hsum
  | _ =>
    cases hb with
    | null => constructor <;> assumption
    | _ => exact hsum

theorem minus (ha : a.Congruent a') (hb : b.Congruent b') : (a - b).Congruent (a' - b') := by
  have hdifference : (if (a == b) = true then Expr.null
      else Expr.sub a.asOperand b.asOperand).Congruent
      (if (a' == b') = true then Expr.null else Expr.sub a'.asOperand b'.asOperand) := by
    rw [← ha.beq hb]
    split
    · exact .null
    · exact .sub ha.asOperand hb.asOperand
  have hnegated : (negated b).Congruent (negated b') := .times (.refl _) hb
  have heq := ha.beq hb
  change (Expr.minus a b).Congruent (Expr.minus a' b')
  cases hb with
  | null => cases ha <;> constructor <;> assumption
  | literal hy =>
    cases ha with
    | null => exact hnegated
    | literal hx =>
      simp only [Expr.minus, ← heq]
      split
      · exact .null
      · exact .literal (CongruentScalar.sub_congr hx hy)
    | _ => exact hdifference
  | _ =>
    cases ha with
    | null => exact hnegated
    | _ => exact hdifference

end Congruent

/-- Exact scalars tell all expressions apart. -/
theorem Congruent.eq {S : Type} [ExactScalar S] {a b : Expr S} (h : a.Congruent b) : a = b := by
  induction h with
  | @literal x y h =>
    have hxy : x = y := h
    rw [hxy]
  | var | scalarVar | null => rfl
  | differential _ ih | trace _ ih | transpose _ ih => rw [ih]
  | add _ _ iha ihb | sub _ _ iha ihb | scale _ _ iha ihb | matMul _ _ iha ihb => rw [iha, ihb]

end Expr

variable {S : Type} [Scalar S] [CongruentScalar S]

/-! ## Patterns -/

/-- The variables have taken congruent expressions. -/
def Assignment.Congruent (σ τ : Assignment S) : Prop :=
  ∀ name, Option.Rel Expr.Congruent (σ.get? name) (τ.get? name)

/-- Two attempts to match succeed alike, or fail for one reason. -/
inductive MatchesAlike : Except MatchFailure (Assignment S) → Except MatchFailure (Assignment S) →
    Prop
  | ok {σ τ : Assignment S} (h : σ.Congruent τ) : MatchesAlike (.ok σ) (.ok τ)
  | error (f : MatchFailure) : MatchesAlike (.error f) (.error f)

variable {σ τ : Assignment S} {e e' : Expr S}

theorem MatchesAlike.bind {x y : Except MatchFailure (Assignment S)}
    {f g : Assignment S → Except MatchFailure (Assignment S)} (h : MatchesAlike x y)
    (hfg : ∀ {σ τ}, σ.Congruent τ → MatchesAlike (f σ) (g τ)) :
    MatchesAlike (x >>= f) (y >>= g) := by
  cases h with
  | ok h => exact hfg h
  | error f => exact .error f

theorem Assignment.Congruent.assign (h : σ.Congruent τ) (he : e.Congruent e') (name : String) :
    MatchesAlike (σ.assign name e) (τ.assign name e') := by
  have hn := h name
  unfold Assignment.assign
  cases hσ : σ.get? name with
  | none =>
    rw [hσ] at hn
    cases hτ : τ.get? name with
    | some => rw [hτ] at hn; cases hn
    | none =>
      refine .ok fun other => ?_
      simp only [Assignment.get?, List.lookup_cons]
      split
      · exact .some he
      · exact h other
  | some x =>
    rw [hσ] at hn
    cases hτ : τ.get? name with
    | none => rw [hτ] at hn; cases hn
    | some y =>
      rw [hτ] at hn
      cases hn with
      | some hxy =>
        simp only [hxy.beq he]
        split
        · exact .ok h
        · exact .error _

theorem matchFrom_congruent (p : Expr S) (he : e.Congruent e') (h : σ.Congruent τ) :
    MatchesAlike (p.matchFrom e σ) (p.matchFrom e' τ) := by
  induction p generalizing e e' σ τ with
  | var name => exact h.assign he name
  | scalarVar name =>
    simp only [Expr.matchFrom, he.isScalar_eq]
    split
    · exact h.assign he name
    · exact .error _
  | differential p ih =>
    simp only [Expr.matchFrom, Expr.hasDifferential, he.contains_eq]
    split
    · exact ih he h
    · exact .error _
  | literal x =>
    cases he <;> try exact .error _
    simp only [Expr.matchFrom]
    rw [CongruentScalar.beq_congr (CongruentScalar.refl x) ‹_›]
    split
    · exact .ok h
    · exact .error _
  | null => cases he <;> first | exact .ok h | exact .error _
  | trace p ih | transpose p ih =>
    cases he <;> try exact .error _
    exact ih ‹_› h
  | add p q ihp ihq | sub p q ihp ihq | scale p q ihp ihq | matMul p q ihp ihq =>
    cases he <;> try exact .error _
    exact (ihp ‹_› h).bind fun h => ihq ‹_› h

theorem subst_congruent (r : Expr S) (h : σ.Congruent τ) : (r.subst σ).Congruent (r.subst τ) := by
  have hget : ∀ (name : String) (e : Expr S),
      ((σ.get? name).getD e).Congruent ((τ.get? name).getD e) := by
    intro name e
    have hn := h name
    cases hσ : σ.get? name <;> cases hτ : τ.get? name <;> rw [hσ, hτ] at hn <;> cases hn
    · exact .refl e
    · assumption
  induction r with
  | var | scalarVar => exact hget _ _
  | literal | null => exact .refl _
  | differential _ ih => exact .differential ih.asOperand
  | trace _ ih => exact ih.traced
  | transpose _ ih => exact ih.transposed
  | add _ _ iha ihb => exact iha.plus ihb
  | sub _ _ iha ihb => exact iha.minus ihb
  | scale _ _ iha ihb | matMul _ _ iha ihb => exact iha.times ihb

theorem Rule.apply_congruent (rule : Rule S) (h : σ.Congruent τ) :
    (rule.apply σ).Congruent (rule.apply τ) := by
  unfold Rule.apply
  rw [Template.fill_ofExpr, Template.fill_ofExpr]
  exact subst_congruent _ h

/-! ## Matches of rules -/

/-- Matches of one rule, with congruent assignments. -/
structure RuleMatch.Congruent (m m' : RuleMatch S) : Prop where
  rule : m.rule = m'.rule
  assignment : m.assignment.Congruent m'.assignment

theorem RuleMatch.Congruent.output {m m' : RuleMatch S} (h : m.Congruent m') :
    m.output.Congruent m'.output := by
  unfold RuleMatch.output
  rw [h.rule]
  exact m'.rule.apply_congruent h.assignment

theorem of?_congruent (he : e.Congruent e') (rule : Rule S) (index : Nat) :
    Option.Rel RuleMatch.Congruent (RuleMatch.of? e rule index) (RuleMatch.of? e' rule index) := by
  have hm : MatchesAlike (rule.pattern.matchFrom e []) (rule.pattern.matchFrom e' []) :=
    matchFrom_congruent rule.pattern he fun _ => .none
  have hsome : ∀ {σ τ : Assignment S}, σ.Congruent τ →
      ∀ names : List String, names.all (σ.get? · |>.isSome) = names.all (τ.get? · |>.isSome) := by
    intro σ τ h names
    congr 1
    funext name
    have hn := h name
    generalize σ.get? name = x at hn ⊢
    generalize τ.get? name = y at hn ⊢
    cases hn <;> rfl
  unfold RuleMatch.of? Expr.matchAgainst
  generalize rule.pattern.matchFrom e [] = x at hm
  generalize rule.pattern.matchFrom e' [] = y at hm
  cases hm with
  | ok h =>
    simp only [hsome h]
    split
    · exact .some ⟨rfl, h⟩
    · exact .none
  | error => exact .none

theorem insert_congruent {m m' : RuleMatch S} {l l' : List (RuleMatch S)} (hm : m.Congruent m')
    (hl : List.Forall₂ RuleMatch.Congruent l l') :
    List.Forall₂ RuleMatch.Congruent (RuleMatch.insert m l) (RuleMatch.insert m' l') := by
  induction hl with
  | nil => exact .cons hm .nil
  | cons hn hl ih =>
    unfold RuleMatch.insert
    rw [hm.rule, hn.rule]
    split
    · exact .cons hm (.cons hn hl)
    · exact .cons hn ih

theorem ruleMatches_congruent (he : e.Congruent e') (rules : List (Rule S)) :
    List.Forall₂ RuleMatch.Congruent (ruleMatches e rules) (ruleMatches e' rules) := by
  unfold ruleMatches
  have hsort : ∀ {l l' : List (RuleMatch S)}, List.Forall₂ RuleMatch.Congruent l l' →
      List.Forall₂ RuleMatch.Congruent (l.foldr RuleMatch.insert [])
        (l'.foldr RuleMatch.insert []) := by
    intro l l' h
    induction h with
    | nil => exact .nil
    | cons hm _ ih => exact insert_congruent hm ih
  refine hsort ?_
  generalize rules.zipIdx = l
  induction l with
  | nil => exact .nil
  | cons p l ih =>
    have hp := of?_congruent he p.1 p.2
    simp only [List.filterMap_cons]
    generalize RuleMatch.of? e p.1 p.2 = x at hp
    generalize RuleMatch.of? e' p.1 p.2 = y at hp
    cases hp with
    | none => exact ih
    | some h => exact .cons h ih

namespace Canonical

variable {seen seen' : List (Expr S)}

theorem isSeen_congruent (hs : List.Forall₂ Expr.Congruent seen seen') (he : e.Congruent e') :
    isSeen seen e = isSeen seen' e' := by
  unfold isSeen
  induction hs with
  | nil => rfl
  | cons h _ ih => rw [List.any_cons, List.any_cons, ih, h.beq he]

/-- The rule to apply is the same for congruent expressions. -/
theorem choose_congruent (rules : List (Rule S)) (previous : Option (Expr S))
    (hs : List.Forall₂ Expr.Congruent seen seen') (he : e.Congruent e') :
    Option.Rel RuleMatch.Congruent (choose rules seen previous e)
      (choose rules seen' previous e') := by
  have hfound := ruleMatches_congruent he rules
  have hfilter : ∀ p : RuleMatch S → Bool, (∀ {m m' : RuleMatch S}, m.rule = m'.rule → p m = p m') →
      List.Forall₂ RuleMatch.Congruent ((ruleMatches e rules).filter p)
        ((ruleMatches e' rules).filter p) :=
    fun p hp => List.rel_filter (fun _ _ h => by simp only [hp h.rule]) hfound
  have hordered := List.rel_append
    (hfilter (fun m => !previous.any (m.rule.replacement == ·)) fun h => by rw [h])
    (hfilter (fun m => previous.any (m.rule.replacement == ·)) fun h => by rw [h])
  have hfind : ∀ {l l' : List (RuleMatch S)}, List.Forall₂ RuleMatch.Congruent l l' →
      Option.Rel RuleMatch.Congruent
        (l.find? fun m => !(m.output == e) && !isSeen seen m.output)
        (l'.find? fun m => !(m.output == e') && !isSeen seen' m.output) := by
    intro l l' h
    induction h with
    | nil => exact .none
    | cons hm _ ih =>
      simp only [List.find?_cons, hm.output.beq he, isSeen_congruent hs hm.output]
      split
      · exact .some hm
      · exact ih
  exact hfind hordered

end Canonical

end TraceCalculus
