import TraceCalculus.Differential
import TraceCalculus.Proofs.Instances
import TraceCalculus.Proofs.RuleLaws

/-! # Expressions that are linear in a differential

The differential of a trace is a sum of traces, each of something linear in `d(X)`. Three classes of
expressions describe it, by their form only:

* `Expr.Plain`: matrices without a differential;
* `Expr.Linear X`: matrices with one `d(X)` in each product;
* `Expr.Traced X`: sums, differences and multiples of traces of the latter.

Each of them is closed under the constructors that simplify, up to the zero element, and under the
rules of all stages. A class that has with an expression its multiples and the other way round
(`Homogeneous`) needs little for that: products are the only constructor to look into, and there the
factors are moved out first (`Product.of_scaled`).
-/

set_option autoImplicit false

namespace TraceCalculus.Expr

variable {S : Type}

/-- A matrix expression with neither traces nor differentials. -/
def Plain : Expr S → Prop
  | .var _ => True
  | .add a b | .sub a b | .matMul a b => a.Plain ∧ b.Plain
  | .scale k b => k.isScalar = true ∧ b.Plain
  | .transpose a => a.Plain
  | _ => False

/-- A matrix expression with the differential of `X` once in every product. -/
def Linear (X : String) : Expr S → Prop
  | .differential inner => inner = .var X
  | .add a b | .sub a b => a.Linear X ∧ b.Linear X
  | .scale k b => k.isScalar = true ∧ b.Linear X
  | .matMul a b => a.Plain ∧ b.Linear X ∨ a.Linear X ∧ b.Plain
  | .transpose a => a.Linear X
  | _ => False

/-- A combination of traces of such expressions. -/
def Traced (X : String) : Expr S → Prop
  | .add a b | .sub a b => a.Traced X ∧ b.Traced X
  | .scale k b => k.isScalar = true ∧ b.Traced X
  | .trace a => a.Linear X
  | _ => False

/-- The expression is the zero element or has the property. -/
def OrNull (P : Expr S → Prop) (e : Expr S) : Prop := e = .null ∨ P e

theorem OrNull.imp {P Q : Expr S → Prop} {e : Expr S} (h : OrNull P e) (hPQ : P e → Q e) :
    OrNull Q e :=
  Or.imp_right hPQ h

/-- Neither a scalar, nor scaled, nor the zero element. -/
def Solid : Expr S → Prop
  | .scalarVar _ | .literal _ | .null | .scale _ _ => False
  | _ => True

theorem Plain.hasDifferential_eq {e : Expr S} (h : e.Plain) : e.hasDifferential = false := by
  induction e with
  | var => rfl
  | add a b iha ihb | sub a b iha ihb | matMul a b iha ihb =>
    simp [hasDifferential, contains, iha h.1, ihb h.2]
  | scale k b _ ihb =>
    simp [hasDifferential, contains, hasDifferential_of_isScalar h.1, ihb h.2]
  | transpose a ih => simp [hasDifferential, contains, ih h]
  | _ => cases h

theorem Plain.not_hasDifferential {e : Expr S} (h : e.Plain) : ¬ e.hasDifferential = true := by
  rw [h.hasDifferential_eq]
  exact Bool.false_ne_true

theorem Linear.hasDifferential_eq {X : String} {e : Expr S} (h : e.Linear X) :
    e.hasDifferential = true := by
  induction e with
  | differential => rfl
  | add a b iha ihb | sub a b iha ihb => simp [hasDifferential, contains, iha h.1]
  | scale k b _ ihb => simp [hasDifferential, contains, ihb h.2]
  | matMul a b iha ihb =>
    rcases h with h | h
    · simp [hasDifferential, contains, ihb h.2]
    · simp [hasDifferential, contains, iha h.1]
  | transpose a ih => simp [hasDifferential, contains, ih h]
  | _ => cases h

theorem Plain.not_linear {X : String} {e : Expr S} (h : e.Plain) : ¬ e.Linear X := by
  intro h'
  have := h'.hasDifferential_eq
  rw [h.hasDifferential_eq] at this
  cases this

theorem Traced.not_matrix {X : String} {e : Expr S} (h : e.Traced X) :
    ¬ (e.Plain ∨ e.Linear X) := by
  induction e with
  | add a b iha ihb | sub a b iha ihb =>
    rintro (h' | h')
    · exact iha h.1 (.inl h'.1)
    · exact iha h.1 (.inr h'.1)
  | scale k b _ ihb =>
    rintro (h' | h')
    · exact ihb h.2 (.inl h'.2)
    · exact ihb h.2 (.inr h'.2)
  | trace => rintro (h' | h') <;> cases h'
  | _ => cases h

/-! ## Multiples -/

/-- A scalar factor that does not disappear from a product. -/
def IsCoefficient [Scalar S] (k : Expr S) : Prop :=
  k.isScalar = true ∧ ∀ x, k.value? = some x → (x == 1) = false

/-- The expression has the property, or is a coefficient times one that has it. -/
def Multiple [Scalar S] (P : Expr S → Prop) : Expr S → Prop
  | .scale k b => k.IsCoefficient ∧ P b
  | e => P e

/-- The expression has the property below any number of scalar factors. -/
def Scaled (P : Expr S → Prop) : Expr S → Prop
  | .scale k b => k.isScalar = true ∧ b.Scaled P
  | e => P e

/-- A product of something with `P` and something with `Q`. -/
def MatMulOf (P Q : Expr S → Prop) : Expr S → Prop
  | .matMul a b => P a ∧ Q b
  | _ => False

/-- Only solid expressions have the property. -/
def AllSolid (P : Expr S → Prop) : Prop := ∀ e, P e → e.Solid

theorem Solid.isScalar {e : Expr S} (h : e.Solid) : e.isScalar = false := by
  cases e <;> first | rfl | cases h

theorem Solid.isNull {e : Expr S} (h : e.Solid) : e.isNull = false := by
  cases e <;> first | rfl | cases h

theorem Scaled.of_scaled?_eq_none {P : Expr S → Prop} {e : Expr S} (h : e.Scaled P)
    (he : e.scaled? = none) : P e := by
  cases e <;> first | exact h | cases he

theorem Scaled.isScalar {P : Expr S → Prop} (hP : AllSolid P) {e : Expr S} (h : e.Scaled P) :
    e.isScalar = false := by
  induction e with
  | scale k b _ ih => simp [Expr.isScalar, ih h.2]
  | _ => exact (hP _ h).isScalar

theorem Scaled.isNull {P : Expr S → Prop} (hP : AllSolid P) {e : Expr S} (h : e.Scaled P) :
    e.isNull = false := by
  cases e with
  | scale k b => rfl
  | _ => exact (hP _ h).isNull

theorem Multiple.of_solid [Scalar S] {P : Expr S → Prop} (hP : AllSolid P) {e : Expr S}
    (h : P e) : e.Multiple P := by
  cases e with
  | scale k b => exact absurd (hP _ h) id
  | _ => exact h

theorem Multiple.imp [Scalar S] {P Q : Expr S → Prop} {e : Expr S} (h : e.Multiple P)
    (hPQ : ∀ x, P x → Q x) : e.Multiple Q := by
  cases e with
  | scale k b => exact ⟨h.1, hPQ b h.2⟩
  | _ => exact hPQ _ h

theorem Multiple.scaled [Scalar S] {P : Expr S → Prop} (hP : AllSolid P) {e : Expr S}
    (h : e.Multiple P) : e.Scaled P := by
  cases e with
  | scale k b =>
    refine ⟨h.1.1, ?_⟩
    have hb := h.2
    cases b with
    | scale => exact absurd (hP _ hb) id
    | _ => exact hb
  | _ => exact h

variable [ExactScalar S] {P Q : Expr S → Prop} {a b c : Expr S}

/-- A scalar times something solid is a multiple of it. -/
theorem Product.of_scalar_solid (h : Product a b c) (ha : a.isScalar = true) (hb : b.Solid) :
    c = b ∧ ¬ a.IsCoefficient ∨ c = .scale a b ∧ a.IsCoefficient := by
  cases h with
  | nullLeft => cases ha
  | nullRight | fold | oneRight | swap | mergeLeft | mergeBoth | hoistRight => cases hb
  | oneLeft hx =>
    refine .inl ⟨rfl, fun hk => ?_⟩
    rw [hk.2 _ rfl] at hx
    cases hx
  | scaleLeft hp hs _ =>
    rw [asOperand_exact]
    exact .inr ⟨rfl, hs, hp.one⟩
  | mergeRight _ hs | scaleRight _ hs | hoistLeft _ hs | matMul _ hs =>
    rw [ha] at hs
    cases hs

theorem Product.of_coefficient (h : Product a b c) (ha : a.IsCoefficient) (hb : b.Solid) :
    c = .scale a b := by
  rcases h.of_scalar_solid ha.1 hb with ⟨-, hk⟩ | ⟨heq, -⟩
  · exact absurd ha hk
  · exact heq

theorem Product.of_solid (h : Product a b c) (ha : a.Solid) (hb : b.Solid) : c = .matMul a b := by
  cases h with
  | nullLeft | fold | oneLeft | mergeBoth | hoistLeft => cases ha
  | nullRight | oneRight | swap | hoistRight => cases hb
  | mergeLeft _ hs | scaleLeft _ hs =>
    rw [ha.isScalar] at hs
    cases hs
  | mergeRight _ _ hs | scaleRight _ _ hs =>
    rw [hb.isScalar] at hs
    cases hs
  | matMul => rfl

theorem Product.of_solid_scale {k : Expr S} (h : Product a (.scale k b) c) (ha : a.Solid)
    (hk : k.IsCoefficient) (hb : b.Solid) : c = .scale k (.matMul a b) := by
  cases h with
  | nullLeft | oneLeft | mergeRight | mergeBoth | hoistLeft => cases ha
  | mergeLeft _ hs | scaleLeft _ hs =>
    rw [ha.isScalar] at hs
    cases hs
  | scaleRight _ _ hs =>
    simp only [Expr.isScalar, hb.isScalar, Bool.and_false] at hs
    cases hs
  | hoistRight _ _ _ _ hm hc =>
    obtain rfl := hm.of_solid ha hb
    exact hc.of_coefficient hk trivial
  | matMul _ _ _ _ hr => cases hr

theorem Product.of_scale_solid {k : Expr S} (h : Product (.scale k a) b c) (hk : k.IsCoefficient)
    (ha : a.Solid) (hb : b.Solid) : c = .scale k (.matMul a b) := by
  cases h with
  | nullRight | oneRight | swap | mergeLeft | mergeBoth | hoistRight => cases hb
  | scaleLeft _ hs =>
    simp only [Expr.isScalar, ha.isScalar, Bool.and_false] at hs
    cases hs
  | mergeRight _ _ hs | scaleRight _ _ hs =>
    rw [hb.isScalar] at hs
    cases hs
  | hoistLeft _ _ _ _ hm hc =>
    obtain rfl := hm.of_solid ha hb
    exact hc.of_coefficient hk trivial
  | matMul _ _ _ hl => cases hl

/-- A scalar times a multiple is a multiple. -/
theorem Product.of_scalar (hP : AllSolid P) (h : Product a b c) (ha : a.isScalar = true)
    (hb : b.Multiple P) : c.Multiple P := by
  by_cases hs : b.Solid
  · rcases h.of_scalar_solid ha hs with ⟨rfl, -⟩ | ⟨rfl, hk⟩
    · exact hb
    · refine ⟨hk, ?_⟩
      cases b <;> first | exact hb | cases hs
  cases b with
  | scale s r =>
    cases h with
    | nullLeft => cases ha
    | oneLeft => exact hb
    | mergeLeft _ _ ht hc =>
      have hts := ht.isScalar ha hb.1.1
      rcases hc.of_scalar_solid hts (hP _ hb.2) with ⟨rfl, -⟩ | ⟨rfl, hk⟩
      · exact .of_solid hP hb.2
      · exact ⟨hk, hb.2⟩
    | scaleLeft _ _ hb' => cases hb'
    | mergeRight _ hs | scaleRight _ hs | mergeBoth _ hs | hoistLeft _ hs | hoistRight _ hs
    | matMul _ hs =>
      rw [ha] at hs
      cases hs
  | _ => exact absurd (hP _ hb) hs

theorem Product.scaled_of_scalar (hP : AllSolid P) (h : Product a b c) (ha : a.isScalar = true)
    (hb : b.Scaled P) : c.Scaled P := by
  induction h with
  | nullLeft => cases ha
  | nullRight | fold | oneRight | swap => exact absurd (hP _ hb) id
  | oneLeft => exact hb
  | mergeLeft _ _ ht _ _ ihc => exact ihc (ht.isScalar ha hb.1) hb.2
  | scaleLeft _ hs _ =>
    rw [asOperand_exact]
    exact ⟨hs, hb⟩
  | mergeRight _ hs | scaleRight _ hs | mergeBoth _ hs | hoistLeft _ hs | hoistRight _ hs
  | matMul _ hs =>
    rw [ha] at hs
    cases hs

/-- Factors leave a product of matrices. -/
theorem Product.of_scaled (hP : AllSolid P) (hQ : AllSolid Q) (h : Product a b c)
    (ha : a.Scaled P) (hb : b.Scaled Q) : c.Multiple (MatMulOf P Q) := by
  have hPQ : AllSolid (MatMulOf P Q) := by
    intro e he
    cases e <;> trivial
  induction h with
  | nullLeft | fold | oneLeft => exact absurd (hP _ ha) id
  | nullRight | oneRight | swap => exact absurd (hQ _ hb) id
  | mergeLeft _ hs | scaleLeft _ hs =>
    rw [ha.isScalar hP] at hs
    cases hs
  | mergeRight _ _ hs | scaleRight _ _ hs =>
    rw [hb.isScalar hQ] at hs
    cases hs
  | mergeBoth _ _ _ ht _ hc _ ihm _ =>
    exact hc.of_scalar hPQ (ht.isScalar ha.1 hb.1) (ihm ha.2 hb.2)
  | hoistLeft _ _ _ _ _ hc ihm _ => exact hc.of_scalar hPQ ha.1 (ihm ha.2 hb)
  | hoistRight _ _ _ _ _ hc ihm _ => exact hc.of_scalar hPQ hb.1 (ihm ha hb.2)
  | matMul _ _ _ hl hr => exact ⟨ha.of_scaled?_eq_none hl, hb.of_scaled?_eq_none hr⟩

/-! ## Homogeneous classes -/

/-- A class that has the scalar multiples of its members, and whose members are multiples of solid
ones. -/
structure Homogeneous (C : Expr S → Prop) : Prop where
  scale : ∀ {k b}, C (.scale k b) ↔ k.isScalar = true ∧ C b
  solid : ∀ {e}, C e → e.scaled? = none → e.Solid

namespace Homogeneous

variable {C D F : Expr S → Prop}

omit [ExactScalar S] in
theorem scaled_iff (hC : Homogeneous C) {e : Expr S} :
    e.Scaled (fun x => C x ∧ x.Solid) ↔ C e := by
  induction e with
  | scale k b _ ih => rw [Scaled, ih, hC.scale]
  | _ => exact ⟨And.left, fun h => ⟨h, hC.solid h rfl⟩⟩

omit [ExactScalar S] in
theorem allSolid (C : Expr S → Prop) : AllSolid fun x => C x ∧ x.Solid := fun _ h => h.2

omit [ExactScalar S] in
theorem isScalar_eq (hC : Homogeneous C) (h : C a) : a.isScalar = false :=
  (hC.scaled_iff.2 h).isScalar (allSolid C)

omit [ExactScalar S] in
theorem isNull_eq (hC : Homogeneous C) (h : C a) : a.isNull = false :=
  (hC.scaled_iff.2 h).isNull (allSolid C)

theorem scalar_times (hC : Homogeneous C) (ha : a.isScalar = true) (hb : C b) : C (a * b) :=
  hC.scaled_iff.1 ((product_times a b).scaled_of_scalar (allSolid C) ha (hC.scaled_iff.2 hb))

theorem scalar_times_orNull (hC : Homogeneous C) (ha : a.isScalar = true) (hb : OrNull C b) :
    OrNull C (a * b) := by
  rcases hb with rfl | hb
  · exact .inl (times_null a)
  · exact .inr (hC.scalar_times ha hb)

theorem times (hC : Homogeneous C) (hD : Homogeneous D) (hF : Homogeneous F)
    (h : ∀ {a b}, C a → D b → F (.matMul a b)) (ha : OrNull C a) (hb : OrNull D b) :
    OrNull F (a * b) := by
  rcases ha with rfl | ha
  · exact .inl (null_times b)
  rcases hb with rfl | hb
  · exact .inl (times_null a)
  have hm := (product_times a b).of_scaled (allSolid C) (allSolid D) (hC.scaled_iff.2 ha)
    (hD.scaled_iff.2 hb)
  have key : ∀ e : Expr S, e.MatMulOf (fun x => C x ∧ x.Solid) (fun x => D x ∧ x.Solid) → F e := by
    intro e he
    cases e <;> first | cases he; done | exact h he.1.1 he.2.1
  refine .inr ?_
  generalize a * b = c at hm
  cases c with
  | scale k e => exact hF.scale.2 ⟨hm.1.1, key e hm.2⟩
  | _ => exact key _ hm

theorem plus (hC : Homogeneous C) (h : ∀ {a b}, C a → C b → C (.add a b)) (ha : OrNull C a)
    (hb : OrNull C b) : OrNull C (a + b) := by
  rcases ha with rfl | ha
  · exact hb
  rcases hb with rfl | hb
  · change OrNull C (Expr.plus a .null)
    cases a <;> exact .inr ha
  refine .inr ?_
  change C (Expr.plus a b)
  unfold Expr.plus
  split
  · exact hb
  · exact ha
  · exact absurd (hC.solid ha rfl) id
  · split
    · exact hC.scalar_times (a := .literal Scalar.two) rfl ha
    · rw [asOperand_exact, asOperand_exact]
      exact h ha hb

theorem minus (hC : Homogeneous C) (h : ∀ {a b}, C a → C b → C (.sub a b)) (ha : OrNull C a)
    (hb : OrNull C b) : OrNull C (a - b) := by
  change OrNull C (Expr.minus a b)
  unfold Expr.minus
  split
  case h_1 => exact ha
  case h_2 => exact hC.scalar_times_orNull (a := .literal (-1)) rfl hb
  case h_3 na nb =>
    have ha := ha.resolve_left na
    have hb := hb.resolve_left nb
    split
    case isTrue => exact .inl rfl
    case isFalse =>
      split
      case h_1 => exact absurd (hC.solid ha rfl) id
      case h_2 =>
        rw [asOperand_exact, asOperand_exact]
        exact .inr (h ha hb)

omit [ExactScalar S] in
theorem ne_null (hC : Homogeneous C) (h : C a) : a ≠ .null := by
  rintro rfl
  cases hC.isNull_eq h

omit [ExactScalar S] in
theorem ne_literal (hC : Homogeneous C) (h : C a) (x : S) : a ≠ .literal x := by
  rintro rfl
  cases hC.isScalar_eq h

theorem plus_eq (hC : Homogeneous C) (ha : C a) (hb : C b) (h : a ≠ b) : a + b = .add a b := by
  rcases plus_cases (hC.ne_null ha) (hC.ne_null hb) with ⟨x, -, hx, -⟩ | heq | heq
  · exact absurd hx (hC.ne_literal ha x)
  · exact absurd heq h
  · exact heq

theorem minus_eq (hC : Homogeneous C) (ha : C a) (hb : C b) :
    a - b = .null ∨ a - b = .sub a b := by
  rcases minus_cases (hC.ne_null ha) (hC.ne_null hb) with ⟨x, -, hx, -⟩ | rfl | heq
  · exact absurd hx (hC.ne_literal ha x)
  · exact .inl (minus_self a)
  · exact .inr heq

theorem kind_plus (hC : Homogeneous C) (ha : C a) (hb : C b) (h : a ≠ b) : (a + b).kind = .add := by
  rw [hC.plus_eq ha hb h]
  rfl

theorem kind_minus (hC : Homogeneous C) (ha : C a) (hb : C b) :
    (a - b).kind = .null ∨ (a - b).kind = .sub := by
  rcases hC.minus_eq ha hb with heq | heq
  · rw [heq]
    exact .inl rfl
  · rw [heq]
    exact .inr rfl

theorem kind_times (hC : Homogeneous C) (hD : Homogeneous D) (ha : OrNull C a) (hb : OrNull D b) :
    (a * b).kind = .null ∨ (a * b).kind = .matMul ∨ (a * b).kind = .scale := by
  rcases ha with rfl | ha
  · rw [null_times]
    exact .inl rfl
  rcases hb with rfl | hb
  · rw [times_null]
    exact .inl rfl
  have hm := (product_times a b).of_scaled (allSolid C) (allSolid D) (hC.scaled_iff.2 ha)
    (hD.scaled_iff.2 hb)
  refine .inr ?_
  generalize a * b = c at hm
  cases c <;> first | exact .inl rfl | exact .inr rfl | cases hm

end Homogeneous

section Classes

variable {X : String}

omit [ExactScalar S] in
theorem homogeneous_plain : Homogeneous (Plain : Expr S → Prop) where
  scale := Iff.rfl
  solid {e} h he := by cases e <;> trivial

omit [ExactScalar S] in
theorem homogeneous_linear : Homogeneous (Linear X : Expr S → Prop) where
  scale := Iff.rfl
  solid {e} h he := by cases e <;> trivial

omit [ExactScalar S] in
theorem homogeneous_traced : Homogeneous (Traced X : Expr S → Prop) where
  scale := Iff.rfl
  solid {e} h he := by cases e <;> trivial

theorem plain_times (ha : OrNull Plain a) (hb : OrNull Plain b) : OrNull Plain (a * b) :=
  homogeneous_plain.times homogeneous_plain homogeneous_plain .intro ha hb

theorem linear_times_right (ha : OrNull Plain a) (hb : OrNull (Linear X) b) :
    OrNull (Linear X) (a * b) :=
  homogeneous_plain.times homogeneous_linear homogeneous_linear (fun ha hb => .inl ⟨ha, hb⟩) ha hb

theorem linear_times_left (ha : OrNull (Linear X) a) (hb : OrNull Plain b) :
    OrNull (Linear X) (a * b) :=
  homogeneous_linear.times homogeneous_plain homogeneous_linear (fun ha hb => .inr ⟨ha, hb⟩) ha hb

omit [ExactScalar S] in
theorem plain_transposed (h : OrNull Plain a) : OrNull Plain a.transposed := by
  rcases h with rfl | h
  · exact .inl rfl
  unfold transposed
  split
  · cases h
  · exact .inr h
  · cases h
  · rw [if_neg (by simp [homogeneous_plain.isScalar_eq h])]
    exact .inr h

omit [ExactScalar S] in
theorem linear_transposed (h : OrNull (Linear X) a) : OrNull (Linear X) a.transposed := by
  rcases h with rfl | h
  · exact .inl rfl
  unfold transposed
  split
  · cases h
  · exact .inr h
  · cases h
  · rw [if_neg (by simp [homogeneous_linear.isScalar_eq h])]
    exact .inr h

omit [ExactScalar S] in
theorem traced_eq_trace (h : a.isNull = false) (hs : a.isScalar = false) : a.traced = .trace a := by
  unfold traced
  split
  · cases h
  · rw [if_neg (by simp [hs])]

omit [ExactScalar S] in
theorem traced_traced (h : OrNull (Linear X) a) : OrNull (Traced X) a.traced := by
  rcases h with rfl | h
  · exact .inl rfl
  · rw [traced_eq_trace (homogeneous_linear.isNull_eq h) (homogeneous_linear.isScalar_eq h)]
    exact .inr h

theorem plain_plus (ha : OrNull Plain a) (hb : OrNull Plain b) : OrNull Plain (a + b) :=
  homogeneous_plain.plus .intro ha hb

theorem plain_minus (ha : OrNull Plain a) (hb : OrNull Plain b) : OrNull Plain (a - b) :=
  homogeneous_plain.minus .intro ha hb

theorem linear_plus (ha : OrNull (Linear X) a) (hb : OrNull (Linear X) b) :
    OrNull (Linear X) (a + b) :=
  homogeneous_linear.plus .intro ha hb

theorem linear_minus (ha : OrNull (Linear X) a) (hb : OrNull (Linear X) b) :
    OrNull (Linear X) (a - b) :=
  homogeneous_linear.minus .intro ha hb

theorem traced_plus (ha : OrNull (Traced X) a) (hb : OrNull (Traced X) b) :
    OrNull (Traced X) (a + b) :=
  homogeneous_traced.plus .intro ha hb

theorem traced_minus (ha : OrNull (Traced X) a) (hb : OrNull (Traced X) b) :
    OrNull (Traced X) (a - b) :=
  homogeneous_traced.minus .intro ha hb

/-- The differential of a matrix is linear. -/
theorem Plain.differentiate {e : Expr S} (h : e.Plain) : OrNull (Linear X) (e.differentiate X) := by
  induction e with
  | var name =>
    rw [Expr.differentiate]
    split
    case isTrue heq =>
      subst heq
      exact .inr rfl
    case isFalse => exact .inl rfl
  | add a b iha ihb => exact linear_plus (iha h.1) (ihb h.2)
  | sub a b iha ihb => exact linear_minus (iha h.1) (ihb h.2)
  | scale k b _ ihb => exact homogeneous_linear.scalar_times_orNull h.1 (ihb h.2)
  | matMul a b iha ihb =>
    exact linear_plus (linear_times_left (iha h.1) (.inr h.2))
      (linear_times_right (.inr h.1) (ihb h.2))
  | transpose a ih => exact linear_transposed (ih h)
  | _ => cases h

/-! ## Instances of replacements -/

variable {P : Expr S → Prop} {a b : Expr S}

theorem Filled.plain (h : Filled P a b) (ha : a.Plain) : OrNull Plain b := by
  induction h with
  | kept => exact .inr ha
  | add _ _ iha ihb => exact plain_plus (iha ha.1) (ihb ha.2)
  | sub _ _ iha ihb => exact plain_minus (iha ha.1) (ihb ha.2)
  | scale hk _ _ ihb => exact homogeneous_plain.scalar_times_orNull hk (ihb ha.2)
  | matMul _ _ iha ihb => exact plain_times (iha ha.1) (ihb ha.2)
  | trace => cases ha
  | transpose _ iha => exact plain_transposed (iha ha)

theorem Filled.linear (h : Filled P a b) (ha : a.Linear X) : OrNull (Linear X) b := by
  induction h with
  | kept => exact .inr ha
  | add _ _ iha ihb => exact linear_plus (iha ha.1) (ihb ha.2)
  | sub _ _ iha ihb => exact linear_minus (iha ha.1) (ihb ha.2)
  | scale hk _ _ ihb => exact homogeneous_linear.scalar_times_orNull hk (ihb ha.2)
  | matMul hl hr iha ihb =>
    rcases ha with ha | ha
    · exact linear_times_right (hl.plain ha.1) (ihb ha.2)
    · exact linear_times_left (iha ha.1) (hr.plain ha.2)
  | trace => cases ha
  | transpose _ iha => exact linear_transposed (iha ha)

theorem Filled.traced (h : Filled P a b) (ha : a.Traced X) : OrNull (Traced X) b := by
  induction h with
  | kept => exact .inr ha
  | add _ _ iha ihb => exact traced_plus (iha ha.1) (ihb ha.2)
  | sub _ _ iha ihb => exact traced_minus (iha ha.1) (ihb ha.2)
  | scale hk _ _ ihb => exact homogeneous_traced.scalar_times_orNull hk (ihb ha.2)
  | matMul | transpose => cases ha
  | trace h => exact traced_traced (h.linear ha)

end Classes

end TraceCalculus.Expr

namespace TraceCalculus.Stage

open TraceCalculus.Expr (Plain Linear Traced OrNull)

variable {S : Type} [ExactScalar S] {rule : Rule S} {σ : Assignment S} {stage : Stage} {X : String}

omit [ExactScalar S] in
theorem plain_replacement (hr : rule ∈ stage.rules) (h : (rule.pattern.instantiate σ).Plain) :
    (rule.replacement.instantiate σ).Plain := by
  revert h
  refine forall_rules (P := fun rule => (rule.pattern.instantiate σ).Plain →
    (rule.replacement.instantiate σ).Plain) ?_ ?_ ?_ hr <;>
    simp +contextual [isolating, normalizing, collecting, Expr.instantiate, Plain]

omit [ExactScalar S] in
theorem linear_replacement (hr : rule ∈ stage.rules)
    (h : (rule.pattern.instantiate σ).Linear X) : (rule.replacement.instantiate σ).Linear X := by
  revert h
  refine forall_rules (P := fun rule => (rule.pattern.instantiate σ).Linear X →
    (rule.replacement.instantiate σ).Linear X) ?_ ?_ ?_ hr
  all_goals
    simp only [isolating, normalizing, collecting, List.forall_mem_cons, Expr.instantiate, Linear,
      Plain, List.not_mem_nil, false_imp_iff, implies_true, and_true]
    tauto

omit [ExactScalar S] in
theorem traced_replacement (hr : rule ∈ stage.rules) (hf : rule.pattern.Faces σ)
    (h : (rule.pattern.instantiate σ).Traced X) : (rule.replacement.instantiate σ).Traced X := by
  -- what two traces are joined in front of has a differential, so it is not plain
  have hC : ((σ.get? "C").getD Letter.C).hasDifferential = true →
      ¬ ((σ.get? "C").getD Letter.C).Plain := by
    intro hd hp
    rw [hp.hasDifferential_eq] at hd
    cases hd
  revert hf h
  refine forall_rules (P := fun rule => rule.pattern.Faces σ →
    (rule.pattern.instantiate σ).Traced X → (rule.replacement.instantiate σ).Traced X) ?_ ?_ ?_ hr
  all_goals
    simp only [isolating, normalizing, collecting, List.forall_mem_cons, Expr.instantiate, Linear,
      Plain, Traced, Expr.Faces, List.not_mem_nil, false_imp_iff, implies_true, and_true, true_and]
    tauto

end TraceCalculus.Stage
