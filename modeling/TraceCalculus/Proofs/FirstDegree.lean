import TraceCalculus.Proofs.Building
import TraceCalculus.Proofs.LinearTerms

/-! # Differentials are of degree one

A first differential is linear in `d(X)` by its form (`Expr.OfDegreeOne`): `d(X)` stands in every
term, and once in every product. The terms without it vanish on the way, since the zero element is
absorbed by products and left out of sums (`Expr.differentiate_ofDegreeOne`).

Unlike the classes `Expr.Linear` and `Expr.Traced` this one asks nothing of the shape of what stands
beside `d(X)`, so that it describes the differential of any expression over any type of scalars.
Products are the only constructor to look into: they move factors out and merge them, but what is
multiplied stays of degree one with constants around it (`Expr.Product.ofDegreeOne`).
-/

set_option autoImplicit false

namespace TraceCalculus.Expr

variable {S : Type} {wrt : String} {a b c e : Expr S}

/-- Every term has `d(X)`, once in every product. What it is multiplied with has no differential. -/
def OfDegreeOne (wrt : String) : Expr S → Prop
  | .differential inner => inner = .var wrt
  | .add a b | .sub a b => a.OfDegreeOne wrt ∧ b.OfDegreeOne wrt
  | .scale k b => k.hasDifferential = false ∧ b.OfDegreeOne wrt
  | .matMul a b =>
    a.OfDegreeOne wrt ∧ b.hasDifferential = false ∨
      a.hasDifferential = false ∧ b.OfDegreeOne wrt
  | .trace a | .transpose a => a.OfDegreeOne wrt
  | .var _ | .scalarVar _ | .literal _ | .null => False

/-- There is no differential, factors are scalars, and scalar variables occur in factors only. -/
def Undifferentiated : Expr S → Prop
  | .var _ | .literal _ | .null => True
  | .scalarVar _ | .differential _ => False
  | .scale k b => k.isScalar = true ∧ b.Undifferentiated
  | .add a b | .sub a b | .matMul a b => a.Undifferentiated ∧ b.Undifferentiated
  | .trace a | .transpose a => a.Undifferentiated

theorem Undifferentiated.hasDifferential_eq (h : e.Undifferentiated) :
    e.hasDifferential = false := by
  induction e with
  | var | literal | null => rfl
  | scalarVar | differential => cases h
  | scale k b _ ihb => simp [hasDifferential, contains, hasDifferential_of_isScalar h.1, ihb h.2]
  | add a b iha ihb | sub a b iha ihb | matMul a b iha ihb =>
    simp [hasDifferential, contains, iha h.1, ihb h.2]
  | trace a ih | transpose a ih => simp [hasDifferential, contains, ih h]

namespace OfDegreeOne

/-- So of the two factors of a product it is one only that has a differential. -/
theorem hasDifferential_eq (h : e.OfDegreeOne wrt) : e.hasDifferential = true := by
  induction e with
  | differential => rfl
  | scale k b _ ihb => simp [hasDifferential, contains, ihb h.2]
  | add a b iha ihb | sub a b iha ihb => simp [hasDifferential, contains, iha h.1]
  | matMul a b iha ihb =>
    rcases h with h | h
    · simp [hasDifferential, contains, iha h.1]
    · simp [hasDifferential, contains, ihb h.2]
  | trace a ih | transpose a ih => simp [hasDifferential, contains, ih h]
  | _ => cases h

theorem not_isScalar (h : e.OfDegreeOne wrt) : ¬ e.isScalar = true := by
  intro hs
  have hd := h.hasDifferential_eq
  rw [hasDifferential_of_isScalar hs] at hd
  cases hd

theorem asOperand [Scalar S] (h : e.OfDegreeOne wrt) : e.asOperand.OfDegreeOne wrt := by
  cases e with
  | literal => cases h
  | _ => exact h

end OfDegreeOne

theorem not_isScalar_of_orNull (h : OrNull (OfDegreeOne wrt) e) : ¬ e.isScalar = true := by
  rcases h with rfl | h
  · exact Bool.false_ne_true
  · exact h.not_isScalar

/-- An operand is of degree one, or has no differential. -/
theorem OfDegreeOne.of_mem_children (h : e.OfDegreeOne wrt ∨ e.hasDifferential = false)
    (ha : a ∈ e.children) : a.OfDegreeOne wrt ∨ a.hasDifferential = false := by
  rcases h with h | h
  · cases e <;> simp only [children, List.mem_cons, List.not_mem_nil, or_false] at ha
    case differential =>
      obtain rfl := ha.trans h
      exact .inr rfl
    case add | sub =>
      rcases ha with rfl | rfl
      · exact .inl h.1
      · exact .inl h.2
    case scale =>
      rcases ha with rfl | rfl
      · exact .inr h.1
      · exact .inl h.2
    case matMul =>
      rcases ha with rfl | rfl
      · exact h.imp And.left And.left
      · exact (h.imp And.right And.right).symm
    case trace | transpose => exact .inl (ha ▸ h)
  · refine .inr ?_
    cases e <;> simp only [children, List.mem_cons, List.not_mem_nil, or_false] at ha
    case differential => cases h
    case trace | transpose =>
      rw [ha]
      exact h
    case add | sub | scale | matMul =>
      have hab := Bool.or_eq_false_iff.1 h
      exact ha.elim (· ▸ hab.1) (· ▸ hab.2)

/-- Every differential in it is `d(X)`. -/
theorem OfDegreeOne.eq_var (h : e.OfDegreeOne wrt) {inner : Expr S}
    (hmem : .differential inner ∈ e.postOrder) : inner = .var wrt := by
  rcases forall_postOrder_of_inherited OfDegreeOne.of_mem_children (.inl h) _ hmem with h | h
  · exact h
  · cases h

/-! ## Transposes and traces -/

theorem Transposition.ofDegreeOne (h : Transposition a c) (ha : OrNull (OfDegreeOne wrt) a) :
    OrNull (OfDegreeOne wrt) c := by
  cases h with
  | null | trace | scalar => exact ha
  | turnBack => exact .inr (ha.resolve_left nofun)
  | transpose ht => exact .inr (ha.resolve_left (by rintro rfl; cases ht))

theorem Tracing.ofDegreeOne (h : Tracing a c) (ha : OrNull (OfDegreeOne wrt) a) :
    OrNull (OfDegreeOne wrt) c := by
  cases h with
  | null | scalar => exact ha
  | trace ht => exact .inr (ha.resolve_left (by rintro rfl; cases ht))

variable [Scalar S]

/-! ## Products -/

theorem Product.not_hasDifferential (h : Product a b c) (ha : a.hasDifferential = false)
    (hb : b.hasDifferential = false) : c.hasDifferential = false := by
  rcases h.hasDifferential with rfl | hc
  · rfl
  · rw [hc, ha, hb, Bool.or_false]

/-- Something of degree one times a constant, on either side, is of degree one. -/
theorem Product.ofDegreeOne (h : Product a b c)
    (hab : OrNull (OfDegreeOne wrt) a ∧ b.hasDifferential = false ∨
      a.hasDifferential = false ∧ OrNull (OfDegreeOne wrt) b) :
    OrNull (OfDegreeOne wrt) c := by
  induction h with
  | nullLeft | nullRight => exact .inl rfl
  | fold => rcases hab with ⟨h | h, -⟩ | ⟨-, h | h⟩ <;> cases h
  | oneLeft =>
    rcases hab with ⟨h, -⟩ | ⟨-, h⟩
    · exact absurd rfl (not_isScalar_of_orNull h)
    · exact h
  | oneRight =>
    rcases hab with ⟨h, -⟩ | ⟨-, h⟩
    · exact h
    · exact absurd rfl (not_isScalar_of_orNull h)
  | swap _ _ _ _ ih => exact ih (hab.symm.imp And.symm And.symm)
  | mergeLeft _ hs ht _ _ ihc =>
    rcases hab with ⟨h, -⟩ | ⟨ha, h⟩
    · exact absurd hs (not_isScalar_of_orNull h)
    · obtain ⟨hk, hb⟩ := h.resolve_left nofun
      exact ihc (.inr ⟨ht.not_hasDifferential ha hk, .inr hb⟩)
  | scaleLeft hp hs =>
    rcases hab with ⟨h, -⟩ | ⟨ha, h⟩
    · exact absurd hs (not_isScalar_of_orNull h)
    · refine .inr ⟨?_, h.resolve_left (by rintro rfl; cases hp.right)⟩
      exact hasDifferential_of_isScalar ((isScalar_asOperand _).trans hs)
  | mergeRight _ _ hs ht _ _ ihc =>
    rcases hab with ⟨h, hb⟩ | ⟨-, h⟩
    · obtain ⟨hk, ha⟩ := h.resolve_left nofun
      exact ihc (.inr ⟨ht.not_hasDifferential hk hb, .inr ha⟩)
    · exact absurd hs (not_isScalar_of_orNull h)
  | scaleRight hp _ hs =>
    rcases hab with ⟨h, hb⟩ | ⟨-, h⟩
    · exact .inr ⟨hb, h.resolve_left (by rintro rfl; cases hp.left)⟩
    · exact absurd hs (not_isScalar_of_orNull h)
  | mergeBoth _ _ _ ht _ _ _ ihm ihc =>
    rcases hab with ⟨h, hb⟩ | ⟨ha, h⟩
    · obtain ⟨hk, ha⟩ := h.resolve_left nofun
      have hb := Bool.or_eq_false_iff.1 hb
      exact ihc (.inr ⟨ht.not_hasDifferential hk hb.1, ihm (.inl ⟨.inr ha, hb.2⟩)⟩)
    · obtain ⟨hk, hb⟩ := h.resolve_left nofun
      have ha := Bool.or_eq_false_iff.1 ha
      exact ihc (.inr ⟨ht.not_hasDifferential ha.1 hk, ihm (.inr ⟨ha.2, .inr hb⟩)⟩)
  | hoistLeft _ _ _ _ _ _ ihm ihc =>
    rcases hab with ⟨h, hb⟩ | ⟨ha, h⟩
    · obtain ⟨hk, ha⟩ := h.resolve_left nofun
      exact ihc (.inr ⟨hk, ihm (.inl ⟨.inr ha, hb⟩)⟩)
    · have ha := Bool.or_eq_false_iff.1 ha
      exact ihc (.inr ⟨ha.1, ihm (.inr ⟨ha.2, h⟩)⟩)
  | hoistRight _ _ _ _ _ _ ihm ihc =>
    rcases hab with ⟨h, hb⟩ | ⟨ha, h⟩
    · have hb := Bool.or_eq_false_iff.1 hb
      exact ihc (.inr ⟨hb.1, ihm (.inl ⟨h, hb.2⟩)⟩)
    · obtain ⟨hk, hb⟩ := h.resolve_left nofun
      exact ihc (.inr ⟨hk, ihm (.inr ⟨ha, .inr hb⟩)⟩)
  | matMul hp =>
    refine .inr (hab.imp (And.imp_left fun h => ?_) (And.imp_right fun h => ?_))
    · exact h.resolve_left (by rintro rfl; cases hp.left)
    · exact h.resolve_left (by rintro rfl; cases hp.right)

/-! ## Sums and differences -/

theorem Plus.ofDegreeOne (h : Plus a b c) (ha : OrNull (OfDegreeOne wrt) a)
    (hb : OrNull (OfDegreeOne wrt) b) : OrNull (OfDegreeOne wrt) c := by
  cases h with
  | nullLeft => exact hb
  | nullRight => exact ha
  | fold => exact absurd rfl (not_isScalar_of_orNull ha)
  | double _ _ hc => exact hc.ofDegreeOne (.inr ⟨rfl, ha⟩)
  | add h =>
    have ha := ha.resolve_left (by rintro rfl; cases h.left)
    have hb := hb.resolve_left (by rintro rfl; cases h.right)
    exact .inr ⟨ha.asOperand, hb.asOperand⟩

theorem Minus.ofDegreeOne (h : Minus a b c) (ha : OrNull (OfDegreeOne wrt) a)
    (hb : OrNull (OfDegreeOne wrt) b) : OrNull (OfDegreeOne wrt) c := by
  cases h with
  | nullRight => exact ha
  | nullLeft _ hc => exact hc.ofDegreeOne (.inr ⟨rfl, hb⟩)
  | cancel => exact .inl rfl
  | fold => exact absurd rfl (not_isScalar_of_orNull ha)
  | sub h =>
    have ha := ha.resolve_left (by rintro rfl; cases h.left)
    have hb := hb.resolve_left (by rintro rfl; cases h.right)
    exact .inr ⟨ha.asOperand, hb.asOperand⟩

/-! ## Differentials -/

/-- The differential of an expression without `X` vanishes. -/
theorem differentiate_eq_null (h : e.Undifferentiated) (hX : .var wrt ∉ e.postOrder) :
    e.differentiate wrt = .null := by
  induction e with
  | var name =>
    have hne : name ≠ wrt := by
      rintro rfl
      simp [postOrder] at hX
    exact if_neg hne
  | literal | null => rfl
  | scalarVar | differential => cases h
  | scale k b _ ihb =>
    simp only [postOrder, List.mem_append, not_or] at hX
    rw [differentiate, ihb h.2 hX.1.2]
    exact (product_times k .null).eq_null_right
  | add a b iha ihb | sub a b iha ihb =>
    simp only [postOrder, List.mem_append, not_or] at hX
    rw [differentiate, iha h.1 hX.1.1, ihb h.2 hX.1.2]
    rfl
  | matMul a b iha ihb =>
    simp only [postOrder, List.mem_append, not_or] at hX
    rw [differentiate, iha h.1 hX.1.1, ihb h.2 hX.1.2, (product_times .null b).eq_null_left,
      (product_times a .null).eq_null_right]
    rfl
  | trace a ih | transpose a ih =>
    simp only [postOrder, List.mem_append, not_or] at hX
    rw [differentiate, ih h hX.1]
    rfl

theorem orNull_differentiate (h : e.Undifferentiated) :
    OrNull (OfDegreeOne wrt) (e.differentiate wrt) := by
  induction e with
  | var name =>
    rw [differentiate]
    split
    case isTrue heq => exact .inr (congrArg var heq)
    case isFalse => exact .inl rfl
  | literal | null => exact .inl rfl
  | scalarVar | differential => cases h
  | scale k b _ ihb =>
    exact (product_times k _).ofDegreeOne (.inr ⟨hasDifferential_of_isScalar h.1, ihb h.2⟩)
  | add a b iha ihb => exact (plus_add _ _).ofDegreeOne (iha h.1) (ihb h.2)
  | sub a b iha ihb => exact (minus_sub _ _).ofDegreeOne (iha h.1) (ihb h.2)
  | matMul a b iha ihb =>
    refine (plus_add _ _).ofDegreeOne ?_ ?_
    · exact (product_times _ b).ofDegreeOne (.inl ⟨iha h.1, h.2.hasDifferential_eq⟩)
    · exact (product_times a _).ofDegreeOne (.inr ⟨h.1.hasDifferential_eq, ihb h.2⟩)
  | trace a ih => exact (tracing_traced _).ofDegreeOne (ih h)
  | transpose a ih => exact (transposition_transposed _).ofDegreeOne (ih h)

/-- The differential of an expression without differentials vanishes, as it does where `X` does not
occur, or is of degree one in `d(X)` and has no other differential. -/
theorem differentiate_ofDegreeOne (wrt : String) (h : e.Undifferentiated) :
    (.var wrt ∉ e.postOrder → e.differentiate wrt = .null) ∧
      (e.differentiate wrt = .null ∨
        (e.differentiate wrt).OfDegreeOne wrt ∧
          ∀ inner, .differential inner ∈ (e.differentiate wrt).postOrder → inner = .var wrt) :=
  ⟨differentiate_eq_null h,
    (orNull_differentiate h).imp_right fun hd => ⟨hd, fun _ hmem => hd.eq_var hmem⟩⟩

/-- The trace of `X'*(k*(A*X))-C`, where a product, a factor and a constant meet. -/
def shiftedSquare : Expr Int :=
  .trace (.sub (.matMul (.transpose (.var "X"))
    (.scale (.scalarVar "k") (.matMul (.var "A") (.var "X")))) (.var "C"))

theorem differentiate_ofDegreeOne_shiftedSquare :
    shiftedSquare.Undifferentiated ∧ shiftedSquare.differentiate "B" = .null ∧
      (shiftedSquare.differentiate "X").text = "Tr(k*d(X)'*A*X+k*X'*A*d(X))" ∧
      (shiftedSquare.differentiate "X").OfDegreeOne "X" := by
  have h : shiftedSquare.Undifferentiated :=
    ⟨⟨trivial, rfl, trivial, trivial⟩, trivial⟩
  have hnull := (differentiate_ofDegreeOne "B" h).1 (by simp [shiftedSquare, postOrder])
  have htext : (shiftedSquare.differentiate "X").text = "Tr(k*d(X)'*A*X+k*X'*A*d(X))" := by
    decide +kernel
  obtain ⟨-, hX | ⟨hX, -⟩⟩ := differentiate_ofDegreeOne "X" h
  · rw [hX] at htext
    exact absurd htext (by decide +kernel)
  · exact ⟨h, hnull, htext, hX⟩

end TraceCalculus.Expr
