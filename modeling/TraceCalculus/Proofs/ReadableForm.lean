import TraceCalculus.Proofs.IsolatingSteps
import TraceCalculus.Proofs.LinearTerms

/-! # The form a gradient is read off

An expression is readable (`Expr.Readable`) if it is made by sums, differences and scalar multiples
of traces `Tr(d(X))` and `Tr(G*d(X))`, with no differential in `G`. What is settled in any stage
retains this form (`Canonical.respected_retains`), up to the zero element, and it retains the class
of every operand on the way.

In the stage that isolates differentials, products with one `d(X)` also retain the place of it
(`Expr.Monomial`), which is the list of the sides it is on from the top product down. Later stages
associate products to the left, so there only the places in a readable form are retained.
-/

set_option autoImplicit false

namespace TraceCalculus

/-- A side of a product. -/
inductive Side where
  | left
  | right
  deriving DecidableEq

namespace Expr

variable {S : Type} {X : String}

/-- A product with `d(X)` at a place, or with its transpose there. -/
def Monomial (X : String) : List Side → Bool → Expr S → Prop
  | [], false, .differential inner => inner = .var X
  | [], true, .transpose a => a = .differential (.var X)
  | .left :: sides, turned, .matMul a b => a.Monomial X sides turned ∧ b.Plain ∧ b.Solid
  | .right :: sides, turned, .matMul a b => a.Plain ∧ a.Solid ∧ b.Monomial X sides turned
  | _, _, _ => False

/-- The differential itself, or a product with it on the right. -/
def Core (X : String) (e : Expr S) : Prop :=
  e.Monomial X [] false ∨ e.Monomial X [.right] false

/-- A combination of traces of multiples of these. -/
def Readable [Scalar S] (X : String) : Expr S → Prop
  | .add a b | .sub a b => a.Readable X ∧ b.Readable X
  | .scale k b => k.isScalar = true ∧ b.Readable X
  | .trace a => a.Multiple (Core X)
  | _ => False

/-- What a run leaves as it is. -/
def Fixed (X : String) : Expr S → Prop
  | .null | .var _ => True
  | .differential inner => inner = .var X
  | _ => False

theorem Monomial.linear {sides : List Side} {turned : Bool} {e : Expr S}
    (h : e.Monomial X sides turned) : e.Linear X := by
  induction e generalizing sides with
  | differential inner =>
    rcases sides with _ | ⟨_ | _, _⟩ <;> cases turned <;> first | exact h | cases h
  | transpose a =>
    rcases sides with _ | ⟨_ | _, _⟩ <;> cases turned <;> try cases h
    rfl
  | matMul a b iha ihb =>
    rcases sides with _ | ⟨_ | _, sides⟩
    · cases turned <;> cases h
    · exact .inr ⟨iha h.1, h.2.1⟩
    · exact .inl ⟨h.1, ihb h.2.2⟩
  | _ => rcases sides with _ | ⟨_ | _, _⟩ <;> cases turned <;> cases h

theorem Monomial.solid {sides : List Side} {turned : Bool} {e : Expr S}
    (h : e.Monomial X sides turned) : e.Solid := by
  cases e <;> first | trivial | cases h.linear
  rcases sides with _ | ⟨_ | _, _⟩ <;> cases turned <;> cases h

theorem allSolid_monomial (sides : List Side) (turned : Bool) :
    AllSolid (Monomial X sides turned : Expr S → Prop) :=
  fun _ h => h.solid

/-- The place of the differential is unique. -/
theorem Monomial.unique {sides sides' : List Side} {turned turned' : Bool} {e : Expr S}
    (h : e.Monomial X sides turned) (h' : e.Monomial X sides' turned') :
    sides = sides' ∧ turned = turned' := by
  induction e generalizing sides sides' with
  | matMul a b iha ihb =>
    rcases sides with _ | ⟨_ | _, sides⟩ <;> rcases sides' with _ | ⟨_ | _, sides'⟩
    case nil.nil | nil.cons.left | nil.cons.right => cases turned <;> cases h
    case cons.left.nil | cons.right.nil => cases turned' <;> cases h'
    case cons.left.cons.left =>
      obtain ⟨rfl, rfl⟩ := iha h.1 h'.1
      exact ⟨rfl, rfl⟩
    case cons.left.cons.right => exact absurd h.1.linear h'.1.not_linear
    case cons.right.cons.left => exact absurd h'.1.linear h.1.not_linear
    case cons.right.cons.right =>
      obtain ⟨rfl, rfl⟩ := ihb h.2.2 h'.2.2
      exact ⟨rfl, rfl⟩
  | _ =>
    rcases sides with _ | ⟨_ | _, _⟩ <;> cases turned <;> try cases h
    all_goals rcases sides' with _ | ⟨_ | _, _⟩ <;> cases turned' <;> try cases h'
    all_goals exact ⟨rfl, rfl⟩

theorem allSolid_core : AllSolid (Core X : Expr S → Prop) := by
  rintro e (h | h)
  · exact h.solid
  · exact h.solid

theorem homogeneous_readable [Scalar S] : Homogeneous (Readable X : Expr S → Prop) where
  scale := Iff.rfl
  solid {e} h he := by cases e <;> trivial

theorem Core.plain_or_eq {a b : Expr S} (h : (matMul a b).Core X) :
    a.Plain ∧ a.Solid ∧ b = .differential (.var X) := by
  rcases h with h | ⟨ha, hs, hb⟩
  · cases h
  · cases b <;> cases hb
    exact ⟨ha, hs, rfl⟩

theorem Readable.traced [Scalar S] {e : Expr S} (h : e.Readable X) : e.Traced X := by
  have hcore : ∀ a : Expr S, a.Core X → a.Linear X := by
    rintro a (ha | ha)
    · exact ha.linear
    · exact ha.linear
  induction e with
  | add a b iha ihb | sub a b iha ihb => exact ⟨iha h.1, ihb h.2⟩
  | scale k b _ ihb => exact ⟨h.1, ihb h.2⟩
  | trace a =>
    cases a with
    | scale k b => exact ⟨h.1.1, hcore b h.2⟩
    | _ => exact hcore _ h
  | _ => cases h

variable [ExactScalar S] {a b : Expr S} {sides : List Side} {turned : Bool}

theorem monomial_times_right (ha : OrNull Plain a)
    (hb : OrNull (Multiple (Monomial X sides turned)) b) :
    OrNull (Multiple (Monomial X (.right :: sides) turned)) (a * b) := by
  rcases ha with rfl | ha
  · exact .inl (null_times b)
  rcases hb with rfl | hb
  · exact .inl (times_null a)
  have hm := (product_times a b).of_scaled (Homogeneous.allSolid Plain)
    (allSolid_monomial sides turned) (homogeneous_plain.scaled_iff.2 ha)
    (hb.scaled (allSolid_monomial sides turned))
  refine .inr (hm.imp fun e he => ?_)
  cases e <;> try cases he
  case matMul.intro ha hb => exact ⟨ha.1, ha.2, hb⟩

theorem monomial_times_left (ha : OrNull (Multiple (Monomial X sides turned)) a)
    (hb : OrNull Plain b) :
    OrNull (Multiple (Monomial X (.left :: sides) turned)) (a * b) := by
  rcases ha with rfl | ha
  · exact .inl (null_times b)
  rcases hb with rfl | hb
  · exact .inl (times_null a)
  have hm := (product_times a b).of_scaled (allSolid_monomial sides turned)
    (Homogeneous.allSolid Plain) (ha.scaled (allSolid_monomial sides turned))
    (homogeneous_plain.scaled_iff.2 hb)
  refine .inr (hm.imp fun e he => ?_)
  cases e <;> try cases he
  case matMul.intro ha hb => exact ⟨ha, hb.1, hb.2⟩

theorem scalar_times_multiple {P : Expr S → Prop} (hP : AllSolid P) (ha : a.isScalar = true)
    (hb : OrNull (Multiple P) b) : OrNull (Multiple P) (a * b) := by
  rcases hb with rfl | hb
  · exact .inl (times_null a)
  · exact .inr ((product_times a b).of_scalar hP ha hb)

omit [ExactScalar S] in
theorem readable_traced [Scalar S] (h : OrNull (Multiple (Core X)) a) :
    OrNull (Readable X) a.traced := by
  rcases h with rfl | h
  · exact .inl rfl
  · have hs := h.scaled allSolid_core
    rw [traced_eq_trace (hs.isNull allSolid_core) (hs.isScalar allSolid_core)]
    exact .inr h

theorem readable_plus (ha : OrNull (Readable X) a) (hb : OrNull (Readable X) b) :
    OrNull (Readable X) (a + b) :=
  homogeneous_readable.plus .intro ha hb

theorem readable_minus (ha : OrNull (Readable X) a) (hb : OrNull (Readable X) b) :
    OrNull (Readable X) (a - b) :=
  homogeneous_readable.minus .intro ha hb

/-! ## Instances of replacements -/

theorem Filled.core {P : Expr S → Prop} (h : Filled P a b) (ha : a.Multiple (Core X)) :
    OrNull (Multiple (Core X)) b := by
  induction h with
  | kept => exact .inr ha
  | add | sub | trace | transpose => rcases ha with ha | ha <;> cases ha
  | scale hk _ _ ihb =>
    exact scalar_times_multiple allSolid_core hk (ihb (.of_solid allSolid_core ha.2))
  | matMul hl hr =>
    obtain ⟨hplain, -, rfl⟩ := Core.plain_or_eq ha
    cases hr
    have hd : OrNull (Multiple (Monomial X [] false)) (differential (.var X) : Expr S) := .inr rfl
    exact (monomial_times_right (hl.plain hplain) hd).imp fun h => h.imp fun _ => .inr

theorem Filled.readable {P : Expr S → Prop} (h : Filled P a b) (ha : a.Readable X) :
    OrNull (Readable X) b := by
  induction h with
  | kept => exact .inr ha
  | add _ _ iha ihb => exact readable_plus (iha ha.1) (ihb ha.2)
  | sub _ _ iha ihb => exact readable_minus (iha ha.1) (ihb ha.2)
  | scale hk _ _ ihb => exact homogeneous_readable.scalar_times_orNull hk (ihb ha.2)
  | matMul | transpose => cases ha
  | trace h => exact readable_traced (h.core ha)

end Expr

namespace Canonical

open TraceCalculus.Expr

variable {S : Type} [ExactScalar S] {X : String} {A : List Side → Bool → Prop} {e r : Expr S}

/-- The class of `e` is that of `r`, or `r` is the zero element. Places are those that `A` holds
of. -/
structure Retains (X : String) (A : List Side → Bool → Prop) (e r : Expr S) : Prop where
  fixed : e.Fixed X → r = e
  scalar : e.isScalar = true → r.isScalar = true
  plain : e.Plain → OrNull Plain r
  linear : e.Linear X → OrNull (Linear X) r
  traced : e.Traced X → OrNull (Traced X) r
  monomial : ∀ sides turned, A sides turned → e.Multiple (Monomial X sides turned) →
    OrNull (Multiple (Monomial X sides turned)) r
  readable : e.Readable X → OrNull (Readable X) r

theorem retains_self (e : Expr S) : Retains X A e e :=
  ⟨fun _ => rfl, id, .inr, .inr, .inr, fun _ _ _ h => .inr h, .inr⟩

theorem Retains.orNull {P Q : Expr S → Prop} (h : Retains X A e r) (he : OrNull P e)
    (hP : P e → OrNull Q r) : OrNull Q r := by
  rcases he with rfl | he
  · exact .inl (h.fixed trivial)
  · exact hP he

theorem Retains.trans {a b c : Expr S} (h : Retains X A a b) (h' : Retains X A b c) :
    Retains X A a c where
  fixed hf := by
    have hb := h.fixed hf
    rw [hb] at h'
    exact h'.fixed hf
  scalar hs := h'.scalar (h.scalar hs)
  plain hp := h'.orNull (h.plain hp) h'.plain
  linear hl := h'.orNull (h.linear hl) h'.linear
  traced ht := h'.orNull (h.traced ht) h'.traced
  monomial sides turned hA hm := h'.orNull (h.monomial sides turned hA hm)
    (h'.monomial sides turned hA)
  readable hr := h'.orNull (h.readable hr) h'.readable

/-- The places in a readable form. -/
def AtRight (sides : List Side) (turned : Bool) : Prop :=
  turned = false ∧ (sides = [] ∨ sides = [.right])

/-- The places that `A` holds of include those in a readable form, and with a place the rest of it. -/
structure Places (A : List Side → Bool → Prop) : Prop where
  atRight : ∀ sides turned, AtRight sides turned → A sides turned
  tail : ∀ side sides turned, A (side :: sides) turned → A sides turned

theorem places_atRight : Places AtRight where
  atRight _ _ h := h
  tail side sides turned h := by
    obtain ⟨rfl, h | h⟩ := h
    · cases h
    · cases h
      exact ⟨rfl, .inl rfl⟩

theorem Retains.core (hA : Places A) (h : Retains X A e r) (he : e.Multiple (Core X)) :
    OrNull (Multiple (Core X)) r := by
  have key : e.Multiple (Monomial X [] false) ∨ e.Multiple (Monomial X [.right] false) := by
    cases e with
    | scale k b => exact he.2.imp (.intro he.1) (.intro he.1)
    | _ => exact he
  rcases key with hm | hm
  · exact (h.monomial _ _ (hA.atRight _ _ ⟨rfl, .inl rfl⟩) hm).imp fun hr => hr.imp fun _ => .inl
  · exact (h.monomial _ _ (hA.atRight _ _ ⟨rfl, .inr rfl⟩) hm).imp fun hr => hr.imp fun _ => .inr

/-- A node built again over operands that retain their classes. -/
theorem retains_of_rebuilt (hA : Places A) (h : Rebuilt (Retains X A) e r) : Retains X A e r := by
  cases h with
  | var | scalarVar | literal | null => exact retains_self _
  | @differential a a' ha =>
    have hX : a = .var X → a' = .var X := by
      rintro rfl
      exact ha.fixed trivial
    rw [asOperand_exact]
    refine ⟨fun hf => ?_, by rintro ⟨⟩, by rintro ⟨⟩, fun hl => .inr (hX hl), by rintro ⟨⟩,
      fun sides turned _ hm => ?_, by rintro ⟨⟩⟩
    · rw [hX hf, show a = .var X from hf]
    · rcases sides with _ | ⟨_ | _, _⟩ <;> cases turned <;> try cases hm
      exact .inr (hX rfl)
  | add ha hb =>
    refine ⟨by rintro ⟨⟩, by rintro ⟨⟩, fun hp => plain_plus (ha.plain hp.1) (hb.plain hp.2),
      fun hl => linear_plus (ha.linear hl.1) (hb.linear hl.2),
      fun ht => traced_plus (ha.traced ht.1) (hb.traced ht.2), fun sides turned _ hm => ?_,
      fun hr => readable_plus (ha.readable hr.1) (hb.readable hr.2)⟩
    rcases sides with _ | ⟨_ | _, _⟩ <;> cases turned <;> cases hm
  | sub ha hb =>
    refine ⟨by rintro ⟨⟩, by rintro ⟨⟩, fun hp => plain_minus (ha.plain hp.1) (hb.plain hp.2),
      fun hl => linear_minus (ha.linear hl.1) (hb.linear hl.2),
      fun ht => traced_minus (ha.traced ht.1) (hb.traced ht.2), fun sides turned _ hm => ?_,
      fun hr => readable_minus (ha.readable hr.1) (hb.readable hr.2)⟩
    rcases sides with _ | ⟨_ | _, _⟩ <;> cases turned <;> cases hm
  | scale ha hb =>
    refine ⟨by rintro ⟨⟩, fun hs => ?_,
      fun hp => homogeneous_plain.scalar_times_orNull (ha.scalar hp.1) (hb.plain hp.2),
      fun hl => homogeneous_linear.scalar_times_orNull (ha.scalar hl.1) (hb.linear hl.2),
      fun ht => homogeneous_traced.scalar_times_orNull (ha.scalar ht.1) (hb.traced ht.2),
      fun sides turned hA' hm => ?_,
      fun hr => homogeneous_readable.scalar_times_orNull (ha.scalar hr.1) (hb.readable hr.2)⟩
    · simp only [Expr.isScalar, Bool.and_eq_true] at hs
      exact isScalar_times (ha.scalar hs.1) (hb.scalar hs.2)
    · have hsolid := allSolid_monomial (S := S) (X := X) sides turned
      exact scalar_times_multiple hsolid (ha.scalar hm.1.1)
        (hb.monomial sides turned hA' (.of_solid hsolid hm.2))
  | matMul ha hb =>
    refine ⟨by rintro ⟨⟩, by rintro ⟨⟩, fun hp => plain_times (ha.plain hp.1) (hb.plain hp.2),
      fun hl => ?_, by rintro ⟨⟩, fun sides turned hA' hm => ?_, by rintro ⟨⟩⟩
    · rcases hl with hl | hl
      · exact linear_times_right (ha.plain hl.1) (hb.linear hl.2)
      · exact linear_times_left (ha.linear hl.1) (hb.plain hl.2)
    · rcases sides with _ | ⟨_ | _, sides⟩
      · cases turned <;> cases hm
      · have hmono := Multiple.of_solid (allSolid_monomial sides turned) hm.1
        exact monomial_times_left (ha.monomial _ _ (hA.tail _ _ _ hA') hmono) (hb.plain hm.2.1)
      · have hmono := Multiple.of_solid (allSolid_monomial sides turned) hm.2.2
        exact monomial_times_right (ha.plain hm.1) (hb.monomial _ _ (hA.tail _ _ _ hA') hmono)
  | trace ha =>
    refine ⟨by rintro ⟨⟩, by rintro ⟨⟩, by rintro ⟨⟩, by rintro ⟨⟩,
      fun ht => traced_traced (ha.linear ht), fun sides turned _ hm => ?_,
      fun hr => readable_traced (ha.core hA hr)⟩
    rcases sides with _ | ⟨_ | _, _⟩ <;> cases turned <;> cases hm
  | transpose ha =>
    refine ⟨by rintro ⟨⟩, by rintro ⟨⟩, fun hp => plain_transposed (ha.plain hp),
      fun hl => linear_transposed (ha.linear hl), by rintro ⟨⟩, fun sides turned _ hm => ?_,
      by rintro ⟨⟩⟩
    rcases sides with _ | ⟨_ | _, _⟩ <;> cases turned <;> try cases hm
    rw [ha.fixed rfl]
    exact .inr rfl

/-! ## Rules -/

/-- No rule that isolates differentials is about a product with one differential in its place. -/
theorem not_isolatingStep_of_monomial {sides : List Side} {turned : Bool}
    (h : e.Multiple (Monomial X sides turned)) {o : Expr S} : ¬ IsolatingStep e o := by
  have hplain : ∀ x : Expr S, x.hasDifferential = true → ¬ x.Plain := by
    intro x hx hp
    rw [hp.hasDifferential_eq] at hx
    cases hx
  have hsum : ∀ {x y : Expr S} {sides : List Side}, ¬ (add x y).Monomial X sides turned ∧
      ¬ (sub x y).Monomial X sides turned := by
    intro x y sides
    rcases sides with _ | ⟨_ | _, _⟩ <;> cases turned <;> exact ⟨id, id⟩
  have hturn : ∀ {x : Expr S}, (transpose x).Monomial X sides turned →
      x = .differential (.var X) := by
    intro x hx
    rcases sides with _ | ⟨_ | _, _⟩ <;> cases turned <;> first | exact hx | cases hx
  intro hs
  cases hs with
  | rotate | traceAdd | traceSub | turn | traceTranspose | associate | traceScale =>
    cases Monomial.linear h
  | addMatMul hd | subMatMul hd =>
    rcases sides with _ | ⟨_ | _, _⟩
    · cases turned <;> cases h
    · first | exact hsum.1 h.1 | exact hsum.2 h.1
    · exact hplain _ hd h.1
  | matMulAdd hd | matMulSub hd =>
    rcases sides with _ | ⟨_ | _, _⟩
    · cases turned <;> cases h
    · exact hplain _ hd h.2.1
    · first | exact hsum.1 h.2.2 | exact hsum.2 h.2.2
  | transposeMatMul | transposeAdd | transposeSub | transposeScale => cases hturn h

/-- No rule is about the products in a readable form. -/
theorem not_match_of_atRight {stage : Stage} {rule : Rule S} {σ : Assignment S}
    (hr : rule ∈ stage.rules) (hm : e.matchAgainst rule.pattern = .ok σ) {sides : List Side}
    {turned : Bool} (hp : AtRight sides turned) : ¬ e.Multiple (Monomial X sides turned) := by
  intro h
  rcases Stage.mem_rules hr with hr | hr | hr
  · exact not_isolatingStep_of_monomial h (isolatingStep_of_match hr hm)
  · rw [← instantiate_of_matchAgainst hm] at h
    simp only [Stage.normalizing, List.mem_cons, List.not_mem_nil, or_false] at hr
    obtain ⟨rfl, rfl | rfl⟩ := hp
    · rcases hr with rfl | rfl | rfl | rfl | rfl <;> cases h
    · rcases hr with rfl | rfl | rfl | rfl | rfl <;> first | cases h; done | cases h.2.2
  · rw [← instantiate_of_matchAgainst hm] at h
    simp only [Stage.collecting, List.mem_cons, List.not_mem_nil, or_false] at hr
    obtain ⟨rfl, rfl | rfl⟩ := hp <;>
      rcases hr with rfl | rfl | rfl | rfl | rfl | rfl | rfl | rfl | rfl | rfl <;> cases h

theorem readable_replacement {stage : Stage} {rule : Rule S} {σ : Assignment S}
    (hr : rule ∈ stage.rules) (hf : rule.pattern.Faces σ)
    (h : (rule.pattern.instantiate σ).Readable X) :
    (rule.replacement.instantiate σ).Readable X := by
  revert hf h
  refine Stage.forall_rules (P := fun rule => rule.pattern.Faces σ →
    (rule.pattern.instantiate σ).Readable X → (rule.replacement.instantiate σ).Readable X)
    ?_ ?_ ?_ hr
  all_goals
    simp only [Stage.isolating, Stage.normalizing, Stage.collecting, List.forall_mem_cons,
      instantiate, Readable, Multiple, Core, Monomial, Plain, Solid, Faces, List.not_mem_nil,
      false_imp_iff, implies_true, and_true, true_and, or_false, false_or, and_false]
  · -- only a rotation and a scalar in a trace are left
    refine ⟨fun hd h => ?_, fun _ h => ⟨h.1.1, Multiple.of_solid allSolid_core h.2⟩⟩
    rw [h.1.hasDifferential_eq] at hd
    cases hd
  · tauto

theorem retains_of_rule {stage : Stage} {m : RuleMatch S}
    (hA : ∀ sides turned, A sides turned → stage = .isolate ∨ AtRight sides turned)
    (hm : m ∈ ruleMatches e stage.rules) : Retains X A e m.output := by
  obtain ⟨hr, hmatch⟩ := mem_ruleMatches hm
  have hf := faces_of_matchAgainst hmatch
  have hkind := Stage.kind_pattern m.assignment hr
  have hinst := instantiate_of_matchAgainst hmatch
  have hfilled := RuleMatch.filled_output hm
  refine ⟨fun h => ?_, fun h => ?_, fun h => ?_, fun h => ?_, fun h => ?_,
    fun sides turned hA' h => ?_, fun h => ?_⟩
  · rw [hinst] at hkind
    cases e <;> simp_all [Expr.kind, Fixed]
  · rw [hinst] at hkind
    cases e <;> simp_all [Expr.kind, Expr.isScalar]
  · rw [← hinst] at h
    exact hfilled.plain (Stage.plain_replacement hr h)
  · rw [← hinst] at h
    exact hfilled.linear (Stage.linear_replacement hr h)
  · rw [← hinst] at h
    exact hfilled.traced (Stage.traced_replacement hr hf h)
  · refine absurd h ?_
    rcases hA sides turned hA' with rfl | hp
    · exact fun h => not_isolatingStep_of_monomial h (isolatingStep_of_match hr hmatch)
    · exact not_match_of_atRight hr hmatch hp
  · rw [← hinst] at h
    exact hfilled.readable (readable_replacement hr hf h)

/-- The expressions that occur while a differential is canonicalized. -/
def Handled (X : String) (e : Expr S) : Prop :=
  e = .null ∨ e.isScalar = true ∨ e.Plain ∨ e.Linear X ∨ e.Traced X

omit [ExactScalar S] in
theorem Handled.operand {a : Expr S} (he : Handled X e) (ha : a ∈ e.children) : Handled X a := by
  rcases he with rfl | h | h | h | h
  · cases ha
  · cases e <;> simp_all [Expr.children, Expr.isScalar, Handled]
    rcases ha with rfl | rfl
    · exact .inr (.inl h.1)
    · exact .inr (.inl h.2)
  · cases e <;> simp_all [Expr.children, Plain, Handled] <;> rcases ha with rfl | rfl <;> tauto
  · cases e <;> simp_all [Expr.children, Linear, Plain, Handled] <;> rcases ha with rfl | rfl <;> tauto
  · cases e <;> simp_all [Expr.children, Traced, Handled] <;> rcases ha with rfl | rfl <;> tauto

theorem Handled.result (he : Handled X e) (h : Retains X A e r) : Handled X r := by
  rcases he with rfl | he | he | he | he
  · exact .inl (h.fixed trivial)
  · exact .inr (.inl (h.scalar he))
  · exact (h.plain he).imp_right fun hr => .inr (.inl hr)
  · exact (h.linear he).imp_right fun hr => .inr (.inr (.inl hr))
  · exact (h.traced he).imp_right fun hr => .inr (.inr (.inr hr))

/-- Every stage retains the places that it does not change. -/
theorem respected_retains {stage : Stage} (hA : Places A)
    (hstage : ∀ sides turned, A sides turned → stage = .isolate ∨ AtRight sides turned) :
    Respected (Handled X) stage (Retains X A : Expr S → Expr S → Prop) where
  operand := Handled.operand
  result := Handled.result
  trans := Retains.trans
  recalled h hr := eq_of_beq h ▸ hr
  self _ _ := retains_self _
  rebuilt _ := retains_of_rebuilt hA
  rule _ _ := retains_of_rule hstage

end Canonical

end TraceCalculus
