import TraceCalculus.Proofs.ProductSteps
import TraceCalculus.Proofs.Reading

/-! # The constructors that simplify keep the value

`Expr.Stands I e v` says that `e` may stand for the value `v`: `v` is a value of `e`, or `e` is the
zero element and `v` is a zero. Each of the constructors of `TraceCalculus.Expr.Build` takes
expressions that stand for values to one that stands for the sum, difference, product, trace or
transpose of the values.

A product also has to be allowed by the reading: where products are those of matrices, an operand
that is no matrix has to be plainly a scalar.
-/

set_option autoImplicit false

namespace TraceCalculus.Expr

variable {S : Type} [ExactScalar S] {I : Reading S}

/-- `e` may stand for `v`. -/
def Stands (I : Reading S) (e : Expr S) (v : Value S) : Prop :=
  Means I e v ∨ e = .null ∧ v.IsZero

theorem Means.stands {e : Expr S} {v : Value S} (h : Means I e v) : Stands I e v := .inl h

theorem stands_null_iff {v : Value S} : Stands I .null v ↔ v.IsZero := by
  constructor
  · rintro (h | ⟨-, h⟩)
    · cases h with | null h => exact I.null_isZero _ h
    · exact h
  · exact fun h => .inr ⟨rfl, h⟩

theorem Stands.means {e : Expr S} {v : Value S} (h : Stands I e v) (he : e.isNull = false) :
    Means I e v := by
  obtain h | ⟨rfl, -⟩ := h
  · exact h
  · cases he

/-- Where the zero element stands for every zero, to stand for a value is to have it. -/
theorem Stands.means_of_null (hI : ∀ v, v.IsZero → I.null v) {e : Expr S} {v : Value S}
    (h : Stands I e v) : Means I e v := by
  obtain h | ⟨rfl, h⟩ := h
  · exact h
  · exact .null (hI v h)

theorem Stands.eq_scalar {e : Expr S} {v : Value S} (h : Stands I e v) (he : e.isScalar = true) :
    ∃ x, v = .scalar x :=
  (h.means (isNull_eq_false_of_isScalar he)).eq_scalar he

/-! ## Transposes and traces -/

theorem Stands.transposed {e : Expr S} {v : Value S} (h : Stands I e v) :
    Stands I e.transposed v.transpose := by
  obtain h | ⟨rfl, h⟩ := h
  · unfold Expr.transposed
    split
    · exact stands_null_iff.2 ((stands_null_iff.1 h.stands).transpose)
    · cases h with
      | transpose h' =>
        rw [Value.transpose_transpose]
        exact h'.stands
    · cases h with
      | @trace _ w _ h' ht =>
        have hk := Value.isMatrix_of_trace ht
        cases v with
        | scalar x => exact .inl (.trace h' ht)
        | matrix m => cases hk
    · split
      case isTrue hs =>
        obtain ⟨x, rfl⟩ := h.eq_scalar hs
        exact h.stands
      case isFalse => exact .inl (.transpose h)
  · exact stands_null_iff.2 h.transpose

theorem Stands.traced {e : Expr S} {v t : Value S} (h : Stands I e v) (ht : v.trace = .ok t) :
    Stands I e.traced t := by
  obtain h | ⟨rfl, h⟩ := h
  · unfold Expr.traced
    split
    · exact stands_null_iff.2 (Value.trace_isZero ht (stands_null_iff.1 h.stands))
    · split
      case isTrue hs =>
        obtain ⟨x, rfl⟩ := h.eq_scalar hs
        cases ht
        exact h.stands
      case isFalse => exact .inl (.trace h ht)
  · exact stands_null_iff.2 (Value.trace_isZero ht h)

/-! ## Products -/

/-- The reading allows the product of `a` and `b` with the values `u` and `v`. -/
def Allowed (I : Reading S) (a b : Expr S) (u v : Value S) : Prop :=
  I.strict → a.isScalar = true ∨ b.isScalar = true ∨ u.isMatrix = true ∧ v.isMatrix = true

theorem allowed_of_scalar {a b : Expr S} {u v : Value S} (h : a.isScalar = true) :
    Allowed I a b u v :=
  fun _ => .inl h

theorem Allowed.both {a b : Expr S} {u v : Value S} (h : Allowed I a b u v)
    (ha : a.isScalar = false) (hb : b.isScalar = false) (hs : I.strict) :
    u.isMatrix = true ∧ v.isMatrix = true := by
  obtain h | h | h := h hs
  · rw [ha] at h
    cases h
  · rw [hb] at h
    cases h
  · exact h

theorem Stands.scale_cases {s b : Expr S} {v : Value S} (h : Stands I (scale s b) v) :
    ∃ x w, s.isScalar = true ∧ Means I s (.scalar x) ∧ Means I b w ∧ v = w.scaleBy x := by
  have h' := h.means rfl
  cases h' with | @scale _ _ x w hk hs hb => exact ⟨x, w, hk, hs, hb, rfl⟩

theorem Product.stands {a b c : Expr S} (h : Product a b c) {u v w : Value S}
    (ha : Stands I a u) (hb : Stands I b v) (hw : u.mul v = .ok w) (hk : Allowed I a b u v) :
    Stands I c w := by
  induction h generalizing u v w with
  | nullLeft => exact stands_null_iff.2 (Value.mul_isZero_left hw (stands_null_iff.1 ha))
  | nullRight => exact stands_null_iff.2 (Value.mul_isZero_right hw (stands_null_iff.1 hb))
  | fold x y =>
    cases ha.means rfl
    cases hb.means rfl
    cases hw
    exact .inl (.literal _)
  | oneLeft hx =>
    cases ha.means rfl
    rw [Value.scalar_mul, (ExactScalar.beq_iff _ _).1 hx, Value.scaleBy_one] at hw
    cases hw
    exact hb
  | oneRight _ _ hy =>
    cases hb.means rfl
    rw [Value.mul_scalar, (ExactScalar.beq_iff _ _).1 hy, Value.scaleBy_one] at hw
    cases hw
    exact ha
  | swap _ _ _ _ ih =>
    cases hb.means rfl
    rw [Value.mul_scalar] at hw
    exact ih (.inl (.literal _)) ha ((Value.scalar_mul _ _).trans hw) (allowed_of_scalar rfl)
  | mergeLeft _ hs ht _ iht ihc =>
    obtain ⟨x, rfl⟩ := ha.eq_scalar hs
    obtain ⟨y, v', hy, hs', hr, rfl⟩ := hb.scale_cases
    rw [Value.scalar_mul, Value.scaleBy_scaleBy] at hw
    have ht' := iht ha hs'.stands (Value.scalar_mul x (.scalar y)) (allowed_of_scalar hs)
    exact ihc ht' hr.stands ((Value.scalar_mul _ _).trans hw)
      (allowed_of_scalar (ht.isScalar hs hy))
  | scaleLeft hp hs _ =>
    obtain ⟨x, rfl⟩ := ha.eq_scalar hs
    rw [Value.scalar_mul] at hw
    cases hw
    rw [asOperand_exact]
    exact .inl (.scale hs (ha.means hp.left) (hb.means hp.right))
  | mergeRight _ _ hs ht _ iht ihc =>
    obtain ⟨y, rfl⟩ := hb.eq_scalar hs
    obtain ⟨x, u', hx, hs', hl, rfl⟩ := ha.scale_cases
    rw [Value.mul_scalar, Value.scaleBy_scaleBy, mul_comm] at hw
    have ht' := iht hs'.stands hb (Value.scalar_mul x (.scalar y)) (allowed_of_scalar hx)
    exact ihc ht' hl.stands ((Value.scalar_mul _ _).trans hw)
      (allowed_of_scalar (ht.isScalar hx hs))
  | scaleRight hp _ hs _ =>
    obtain ⟨y, rfl⟩ := hb.eq_scalar hs
    rw [Value.mul_scalar] at hw
    cases hw
    exact .inl (.scale hs (hb.means hp.right) (ha.means hp.left))
  | mergeBoth _ hna hnb ht _ _ iht ihm ihc =>
    obtain ⟨x, u', hx, hs, hl, rfl⟩ := ha.scale_cases
    obtain ⟨y, v', hy, hu, hr, rfl⟩ := hb.scale_cases
    obtain ⟨p, hp, rfl⟩ := Value.mul_of_scaleBy_mul hw
    obtain ⟨q, hq, rfl⟩ := Value.mul_of_mul_scaleBy hp
    have ht' := iht hs.stands hu.stands (Value.scalar_mul x (.scalar y)) (allowed_of_scalar hx)
    have hm' := ihm hl.stands hr.stands hq fun h =>
      .inr (.inr (by simpa using hk.both hna hnb h))
    refine ihc ht' hm' ?_ (allowed_of_scalar (ht.isScalar hx hy))
    rw [Value.scaleBy_scalar, Value.scalar_mul, Value.scaleBy_scaleBy]
  | hoistLeft _ hna hnb _ _ _ ihm ihc =>
    obtain ⟨x, u', hx, hs, hl, rfl⟩ := ha.scale_cases
    obtain ⟨p, hp, rfl⟩ := Value.mul_of_scaleBy_mul hw
    have hm' := ihm hl.stands hb hp fun h => .inr (.inr (by simpa using hk.both hna hnb h))
    exact ihc hs.stands hm' (Value.scalar_mul _ _) (allowed_of_scalar hx)
  | hoistRight _ hna hnb _ _ _ ihm ihc =>
    obtain ⟨x, v', hx, hs, hr, rfl⟩ := hb.scale_cases
    obtain ⟨p, hp, rfl⟩ := Value.mul_of_mul_scaleBy hw
    have hm' := ihm ha hr.stands hp fun h => .inr (.inr (by simpa using hk.both hna hnb h))
    exact ihc hs.stands hm' (Value.scalar_mul _ _) (allowed_of_scalar hx)
  | matMul hp hna hnb _ _ =>
    exact .inl (.matMul (ha.means hp.left) (hb.means hp.right) (hk.both hna hnb) hw)

theorem Stands.times {a b : Expr S} {u v w : Value S} (ha : Stands I a u) (hb : Stands I b v)
    (hw : u.mul v = .ok w) (hk : Allowed I a b u v) : Stands I (a * b) w :=
  (product_times a b).stands ha hb hw hk

theorem Stands.scaled {a b : Expr S} {x : S} {v : Value S} (hs : a.isScalar = true)
    (ha : Stands I a (.scalar x)) (hb : Stands I b v) : Stands I (a * b) (v.scaleBy x) :=
  ha.times hb (Value.scalar_mul x v) (allowed_of_scalar hs)

theorem Stands.negated {a : Expr S} {v : Value S} (ha : Stands I a v) :
    Stands I (-a) (v.scaleBy (-1)) :=
  Stands.scaled (a := .literal (-1)) rfl (Means.literal (-1)).stands ha

/-! ## Sums and differences -/

theorem plus_cases {a b : Expr S} (ha : a ≠ .null) (hb : b ≠ .null) :
    (∃ x y, a = .literal x ∧ b = .literal y) ∨ a = b ∨ a + b = .add a b := by
  by_cases hab : a = b
  · exact .inr (.inl hab)
  by_cases hl : ∃ x y, a = .literal x ∧ b = .literal y
  · exact .inl hl
  refine .inr (.inr ?_)
  change Expr.plus a b = _
  unfold Expr.plus
  split
  · exact absurd rfl ha
  · exact absurd rfl hb
  · exact absurd ⟨_, _, rfl, rfl⟩ hl
  · rw [if_neg (by simpa using hab), asOperand_exact, asOperand_exact]

theorem minus_cases {a b : Expr S} (ha : a ≠ .null) (hb : b ≠ .null) :
    (∃ x y, a = .literal x ∧ b = .literal y) ∨ a = b ∨ a - b = .sub a b := by
  by_cases hab : a = b
  · exact .inr (.inl hab)
  by_cases hl : ∃ x y, a = .literal x ∧ b = .literal y
  · exact .inl hl
  refine .inr (.inr ?_)
  change Expr.minus a b = _
  unfold Expr.minus
  split
  · exact absurd rfl hb
  · exact absurd rfl ha
  · rw [if_neg (by simpa using hab)]
    split
    · exact absurd ⟨_, _, rfl, rfl⟩ hl
    · rw [asOperand_exact, asOperand_exact]

theorem minus_self (a : Expr S) : a - a = .null := by
  change Expr.minus a a = _
  unfold Expr.minus
  split
  · rfl
  · exact absurd rfl ‹_›
  · rw [if_pos (by simp)]

theorem Stands.plus {a b : Expr S} {u v w : Value S} (ha : Stands I a u) (hb : Stands I b v)
    (h : Value.Sum u v w) : Stands I (a + b) w := by
  change Stands I (Expr.plus a b) w
  unfold Expr.plus
  split
  case h_1 =>
    rw [h.eq_of_isZero_left (stands_null_iff.1 ha)]
    exact hb
  case h_2 =>
    rw [h.eq_of_isZero_right (stands_null_iff.1 hb)]
    exact ha
  case h_3 =>
    cases ha.means rfl
    cases hb.means rfl
    rw [h.unique (.scalar _ _)]
    exact .inl (.literal _)
  case h_4 na nb _ =>
    have ha' : Means I a u := ha.means (isNull_eq_false na)
    have hb' : Means I b v := hb.means (isNull_eq_false nb)
    split
    case isTrue heq =>
      obtain rfl := (beq_iff _ _).1 heq
      obtain rfl := Means.eq_of_sum ha' hb' h
      rw [h.eq_scaleBy_two]
      exact Stands.scaled (a := .literal Scalar.two) rfl (Means.literal _).stands ha
    case isFalse =>
      rw [asOperand_exact, asOperand_exact]
      exact .inl (.add ha' hb' h)

theorem Stands.minus {a b : Expr S} {u v w : Value S} (ha : Stands I a u) (hb : Stands I b v)
    (h : Value.Difference u v w) : Stands I (a - b) w := by
  change Stands I (Expr.minus a b) w
  unfold Expr.minus
  split
  case h_1 =>
    rw [h.eq_of_isZero_right (stands_null_iff.1 hb)]
    exact ha
  case h_2 =>
    rw [h.eq_of_isZero_left (stands_null_iff.1 ha)]
    exact hb.negated
  case h_3 na nb =>
    have ha' : Means I a u := ha.means (isNull_eq_false na)
    have hb' : Means I b v := hb.means (isNull_eq_false nb)
    split
    case isTrue heq =>
      obtain rfl := (beq_iff _ _).1 heq
      exact stands_null_iff.2 (ha'.isZero_of_difference hb' h)
    case isFalse =>
      split
      · cases ha'
        cases hb'
        cases h.sub_eq
        exact .inl (.literal _)
      · rw [asOperand_exact, asOperand_exact]
        exact .inl (.sub ha' hb' h)

end TraceCalculus.Expr
