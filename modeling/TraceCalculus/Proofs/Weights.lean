import TraceCalculus.Proofs.ReadableForm

/-! # Weights that go down

A run ends because every change makes an expression lighter. What a product, a transpose and a trace
weigh is different from stage to stage (`Weighing`); what all weighings have in common is enough for
the constructors that simplify: a constructor builds the node it is named for or something lighter
(`Expr.descends_times`, `Expr.descends_plus` and so on).

A factor weighs next to nothing, so that moving it about costs little, but a node that is scaled
weighs more the deeper the factor is inside of it. The weight of a scalar tells only whether it is
in the form that products leave it in (`Expr.isNormalScalar`); a visit brings it to that form, and
leaves it as it is from then on.
-/

set_option autoImplicit false

namespace TraceCalculus

/-- What products, transposes and traces weigh. The flags tell which operands have a
differential. -/
structure Weighing where
  product : Bool → Bool → Nat → Nat → Nat
  turned : Bool → Nat → Nat
  traced : Nat → Nat
  /-- Weight counts for more inside a product than outside. -/
  product_left : ∀ s t {x y i}, 5 ≤ x → 5 ≤ y → 0 < i → product s t x y + i < product s t (x + i) y
  product_right : ∀ s t {x y i}, 5 ≤ x → 5 ≤ y → 0 < i →
    product s t x y + i < product s t x (y + i)
  turned_add : ∀ t {x i}, 5 ≤ x → 0 < i → turned t x + i < turned t (x + i)
  traced_add : ∀ {x i}, 5 ≤ x → 0 < i → traced x + i < traced (x + i)
  left_lt : ∀ s t {x y}, 5 ≤ x → 5 ≤ y → x < product s t x y
  right_lt : ∀ s t {x y}, 5 ≤ x → 5 ≤ y → y < product s t x y
  lt_turned : ∀ t {x}, 5 ≤ x → x < turned t x
  lt_traced : ∀ {x}, 5 ≤ x → x < traced x

namespace Weighing

variable (A : Weighing) {s t : Bool} {x y x' y' : Nat}

theorem product_mono (hx : 5 ≤ x) (hy : 5 ≤ y) (hxx : x ≤ x') (hyy : y ≤ y') :
    A.product s t x y ≤ A.product s t x' y' ∧
      (x < x' ∨ y < y' → A.product s t x y < A.product s t x' y') := by
  obtain ⟨i, rfl⟩ := Nat.exists_eq_add_of_le hxx
  obtain ⟨l, rfl⟩ := Nat.exists_eq_add_of_le hyy
  have h₁ : 0 < i → _ := A.product_left s t hx hy
  have h₂ : 0 < l → _ := A.product_right s t (Nat.le_add_right_of_le hx : 5 ≤ x + i) hy
  rcases Nat.eq_zero_or_pos i with rfl | hi <;> rcases Nat.eq_zero_or_pos l with rfl | hl
  · simp
  · have := h₂ hl
    simp only [Nat.add_zero] at *
    omega
  · have := h₁ hi
    simp only [Nat.add_zero] at *
    omega
  · have := h₁ hi
    have := h₂ hl
    omega

theorem turned_mono (hx : 5 ≤ x) (hxx : x ≤ x') :
    A.turned t x ≤ A.turned t x' ∧ (x < x' → A.turned t x < A.turned t x') := by
  obtain ⟨i, rfl⟩ := Nat.exists_eq_add_of_le hxx
  rcases Nat.eq_zero_or_pos i with rfl | hi
  · simp
  · have := A.turned_add t hx hi
    omega

theorem traced_mono (hx : 5 ≤ x) (hxx : x ≤ x') :
    A.traced x ≤ A.traced x' ∧ (x < x' → A.traced x < A.traced x') := by
  obtain ⟨i, rfl⟩ := Nat.exists_eq_add_of_le hxx
  rcases Nat.eq_zero_or_pos i with rfl | hi
  · simp
  · have := A.traced_add hx hi
    omega

end Weighing

namespace Expr

variable {S : Type} [ExactScalar S] {X : String}

/-! ## Scalars as products leave them -/

/-- A literal, or variables multiplied on the right one by one, and no factor is the literal one. -/
def isNormalScalar : Expr S → Bool
  | .literal _ | .scalarVar _ => true
  | .scale k (.scalarVar _) => k.isNormalScalar && !k.value?.any (· == 1)
  | _ => false

theorem isNormalScalar_scale {k b : Expr S} : (scale k b).isNormalScalar = true ↔
    (∃ name, b = .scalarVar name) ∧ k.isNormalScalar = true ∧
      ∀ x, k.value? = some x → (x == 1) = false := by
  cases b <;> cases hv : k.value? <;> simp [isNormalScalar, hv]

theorem isScalar_of_isNormalScalar {k : Expr S} (h : k.isNormalScalar = true) :
    k.isScalar = true := by
  induction k with
  | scalarVar | literal => rfl
  | scale a b iha _ =>
    obtain ⟨⟨name, rfl⟩, ha, -⟩ := isNormalScalar_scale.1 h
    simp [isScalar, iha ha]
  | _ => cases h

theorem Product.isNormalScalar {a b c : Expr S} (h : Product a b c)
    (ha : a.isNormalScalar = true) (hb : b.isNormalScalar = true) : c.isNormalScalar = true := by
  have hk := isScalar_of_isNormalScalar ha
  have hl := isScalar_of_isNormalScalar hb
  induction h with
  | nullLeft => exact ha
  | nullRight => exact hb
  | fold => rfl
  | oneLeft => exact hb
  | oneRight => exact ha
  | swap _ _ _ _ ih => exact ih rfl ha rfl hk
  | mergeLeft _ _ ht _ iht ihc =>
    obtain ⟨⟨name, rfl⟩, hs, -⟩ := isNormalScalar_scale.1 hb
    have htn := iht ha hs hk (isScalar_of_isNormalScalar hs)
    exact ihc htn rfl (isScalar_of_isNormalScalar htn) rfl
  | @scaleLeft a b hp _ hs =>
    rw [asOperand_exact]
    have hv := hp.literal
    cases b <;> first | cases hb; done | cases hs; done | cases hv; done | skip
    exact isNormalScalar_scale.2 ⟨⟨_, rfl⟩, ha, hp.one⟩
  | mergeRight _ hs | scaleRight _ hs | mergeBoth _ hs | hoistLeft _ hs | hoistRight _ hs
  | matMul _ hs =>
    rw [hk] at hs
    cases hs

/-- A scalar in normal form is the product of its factors. -/
theorem times_of_isNormalScalar {k b : Expr S} (h : (scale k b).isNormalScalar = true) :
    k * b = .scale k b := by
  obtain ⟨⟨name, rfl⟩, hk, hone⟩ := isNormalScalar_scale.1 h
  have hk := isScalar_of_isNormalScalar hk
  have hp := product_times k (.scalarVar name)
  generalize k * .scalarVar name = c at hp
  cases hp with
  | nullLeft => cases hk
  | oneLeft hx =>
    rw [hone _ rfl] at hx
    cases hx
  | scaleLeft => rw [asOperand_exact]
  | mergeRight _ hs | scaleRight _ hs | hoistLeft _ hs | matMul _ hs =>
    rw [hk] at hs
    cases hs

/-! ## Weights -/

variable {A : Weighing}

/-- The weight of an expression. -/
def weight (A : Weighing) : Expr S → Nat
  | .var _ | .differential _ => 5
  | .scalarVar _ | .literal _ | .null => 0
  | .add a b | .sub a b => a.weight A + b.weight A + 5
  | .scale k b =>
    if k.isScalar && b.isScalar then (if (scale k b).isNormalScalar then 0 else 1)
    else k.weight A + b.weight A + 3
  | .matMul a b => A.product a.hasDifferential b.hasDifferential (a.weight A) (b.weight A)
  | .transpose a => A.turned a.hasDifferential (a.weight A)
  | .trace a => A.traced (a.weight A)

theorem weight_scale {k b : Expr S} (h : b.isScalar = false) :
    (scale k b).weight A = k.weight A + b.weight A + 3 := by
  simp [weight, h]

theorem weight_of_isScalar {k : Expr S} (h : k.isScalar = true) :
    k.weight A = if k.isNormalScalar then 0 else 1 := by
  cases k with
  | scalarVar | literal => rfl
  | scale a b =>
    simp only [isScalar] at h
    simp [weight, h]
  | _ => cases h

theorem weight_le_one {k : Expr S} (h : k.isScalar = true) : k.weight A ≤ 1 := by
  rw [weight_of_isScalar h]
  split <;> omega

/-- Every member of the class weighs at least as much as a variable. -/
def Heavy (A : Weighing) (C : Expr S → Prop) : Prop := ∀ e, C e → 5 ≤ e.weight A

theorem heavy_plain : Heavy A (Plain : Expr S → Prop) := by
  intro e h
  induction e with
  | var => exact Nat.le_refl 5
  | add a b iha ihb | sub a b iha ihb => exact Nat.le_add_left 5 _
  | scale k b _ ihb =>
    rw [weight_scale (homogeneous_plain.isScalar_eq h.2)]
    have := ihb h.2
    omega
  | matMul a b iha ihb =>
    exact (iha h.1).trans (A.left_lt _ _ (iha h.1) (ihb h.2)).le
  | transpose a ih => exact (ih h).trans (A.lt_turned _ (ih h)).le
  | _ => cases h

theorem heavy_linear : Heavy A (Linear X : Expr S → Prop) := by
  intro e h
  induction e with
  | differential => exact Nat.le_refl 5
  | add a b iha ihb | sub a b iha ihb => exact Nat.le_add_left 5 _
  | scale k b _ ihb =>
    rw [weight_scale (homogeneous_linear.isScalar_eq h.2)]
    have := ihb h.2
    omega
  | matMul a b iha ihb =>
    rcases h with h | h
    · exact (ihb h.2).trans (A.right_lt _ _ (heavy_plain a h.1) (ihb h.2)).le
    · exact (iha h.1).trans (A.left_lt _ _ (iha h.1) (heavy_plain b h.2)).le
  | transpose a ih => exact (ih h).trans (A.lt_turned _ (ih h)).le
  | _ => cases h

/-! ## Constructors -/

/-- `r` is `e` or lighter. -/
def Descends (A : Weighing) (e r : Expr S) : Prop := r = e ∨ r.weight A < e.weight A

theorem descends_self (e : Expr S) : Descends A e e := .inl rfl

theorem Descends.le {e r : Expr S} (h : Descends A e r) : r.weight A ≤ e.weight A := by
  rcases h with rfl | h
  · exact Nat.le_refl _
  · exact h.le

theorem Descends.trans {a b c : Expr S} (h : Descends A a b) (h' : Descends A b c) :
    Descends A a c := by
  rcases h with rfl | h
  · exact h'
  · exact .inr (h'.le.trans_lt h)

section Constructors

variable {P Q C D : Expr S → Prop} {a b c k : Expr S}

theorem Product.descends_scale (hP : AllSolid P) (h : Product k b c) (hk : k.isScalar = true)
    (hb : b.Scaled P) : Descends A (.scale k b) c := by
  induction h with
  | nullLeft => cases hk
  | nullRight | fold | oneRight | swap => exact absurd (hP _ hb) id
  | oneLeft =>
    refine .inr ?_
    rw [weight_scale (hb.isScalar hP)]
    omega
  | @mergeLeft a s r t c _ _ ht _ _ ihc =>
    have hts := ht.isScalar hk hb.1
    have hr := hb.2.isScalar hP
    have hle := (ihc hts hb.2).le
    have h1 := weight_le_one (A := A) hts
    rw [weight_scale hr] at hle
    refine .inr ?_
    rw [weight_scale (hb.isScalar hP), weight_scale hr]
    omega
  | scaleLeft =>
    rw [asOperand_exact]
    exact .inl rfl
  | mergeRight _ hs | scaleRight _ hs | mergeBoth _ hs | hoistLeft _ hs | hoistRight _ hs
  | matMul _ hs =>
    rw [hk] at hs
    cases hs

omit [ExactScalar S] in
theorem hasDifferential_scale (hk : k.isScalar = true) :
    (scale k b).hasDifferential = b.hasDifferential := by
  simp [hasDifferential, contains, hasDifferential_of_isScalar hk]

/-- Factors leave a product, which makes it lighter. -/
theorem Product.descends_matMul (hP : AllSolid P) (hQ : AllSolid Q) (hPA : Heavy A (Scaled P))
    (hQA : Heavy A (Scaled Q)) (h : Product a b c) (ha : a.Scaled P) (hb : b.Scaled Q) :
    Descends A (.matMul a b) c := by
  have hPQ : AllSolid (MatMulOf P Q) := by
    intro e he
    cases e <;> trivial
  -- a factor `k` that has left the product `l*r`
  have key : ∀ {k l r m c : Expr S}, k.isScalar = true → l.Scaled P → r.Scaled Q → Product l r m →
      Descends A (.matMul l r) m → Product k m c → c.weight A ≤ k.weight A +
        A.product l.hasDifferential r.hasDifferential (l.weight A) (r.weight A) + 3 := by
    intro k l r m c hk hl hr hm ihm hc
    have hmul := (hm.of_scaled hP hQ hl hr).scaled hPQ
    have hle := (hc.descends_scale (A := A) hPQ hk hmul).le
    rw [weight_scale (hmul.isScalar hPQ)] at hle
    have := ihm.le
    rw [weight] at this
    omega
  induction h with
  | nullLeft | fold | oneLeft => exact absurd (hP _ ha) id
  | nullRight | oneRight | swap => exact absurd (hQ _ hb) id
  | mergeLeft _ hs | scaleLeft _ hs =>
    rw [ha.isScalar hP] at hs
    cases hs
  | mergeRight _ _ hs | scaleRight _ _ hs =>
    rw [hb.isScalar hQ] at hs
    cases hs
  | @mergeBoth s l u r t m c _ _ _ ht hm hc _ ihm _ =>
    have hts := ht.isScalar ha.1 hb.1
    have hle := key hts ha.2 hb.2 hm (ihm ha.2 hb.2) hc
    have h1 := weight_le_one (A := A) hts
    refine .inr ?_
    rw [weight, hasDifferential_scale ha.1, hasDifferential_scale hb.1,
      weight_scale (ha.2.isScalar hP), weight_scale (hb.2.isScalar hQ)]
    generalize l.hasDifferential = d at *
    generalize r.hasDifferential = d' at *
    have hl := hPA l ha.2
    have hr := hQA r hb.2
    have h2 := A.product_left d d' (i := s.weight A + 3) hl hr (by omega)
    have h3 := A.product_right d d' (i := u.weight A + 3)
      (Nat.le_add_right_of_le hl : 5 ≤ l.weight A + (s.weight A + 3)) hr (by omega)
    rw [show s.weight A + l.weight A + 3 = l.weight A + (s.weight A + 3) by omega,
      show u.weight A + r.weight A + 3 = r.weight A + (u.weight A + 3) by omega]
    omega
  | @hoistLeft s l b m c _ _ _ _ hm hc ihm _ =>
    have hle := key ha.1 ha.2 hb hm (ihm ha.2 hb) hc
    have h2 := A.product_left l.hasDifferential b.hasDifferential (i := s.weight A + 3)
      (hPA l ha.2) (hQA b hb) (by omega)
    refine .inr ?_
    rw [weight, hasDifferential_scale ha.1, weight_scale (ha.2.isScalar hP),
      show s.weight A + l.weight A + 3 = l.weight A + (s.weight A + 3) by omega]
    omega
  | @hoistRight a s r m c _ _ _ _ hm hc ihm _ =>
    have hle := key hb.1 ha hb.2 hm (ihm ha hb.2) hc
    have h2 := A.product_right a.hasDifferential r.hasDifferential (i := s.weight A + 3)
      (hPA a ha) (hQA r hb.2) (by omega)
    refine .inr ?_
    rw [weight, hasDifferential_scale hb.1, weight_scale (hb.2.isScalar hQ),
      show s.weight A + r.weight A + 3 = r.weight A + (s.weight A + 3) by omega]
    omega
  | matMul => exact .inl rfl

/-- A scalar times something is that scaled, or lighter. -/
theorem descends_scalar_times (hC : Homogeneous C) (hk : k.isScalar = true) (hb : C b) :
    Descends A (scale k b) (k * b) :=
  (product_times k b).descends_scale (Homogeneous.allSolid C) hk (hC.scaled_iff.2 hb)

theorem weight_scalar_times_le (hC : Homogeneous C) (hk : k.isScalar = true) (hb : C b) :
    (k * b).weight A ≤ k.weight A + b.weight A + 3 := by
  rw [← weight_scale (hC.isScalar_eq hb)]
  exact (descends_scalar_times hC hk hb).le

/-- A product is a product node, or lighter. -/
theorem descends_times (hC : Homogeneous C) (hD : Homogeneous D) (hCA : Heavy A C)
    (hDA : Heavy A D) (ha : C a) (hb : D b) : Descends A (matMul a b) (a * b) :=
  (product_times a b).descends_matMul (Homogeneous.allSolid C) (Homogeneous.allSolid D)
    (fun e he => hCA e (hC.scaled_iff.1 he)) (fun e he => hDA e (hD.scaled_iff.1 he))
    (hC.scaled_iff.2 ha) (hD.scaled_iff.2 hb)

theorem Homogeneous.plus_self (hC : Homogeneous C) (ha : C a) :
    a + a = .literal Scalar.two * a := by
  change Expr.plus a a = _
  unfold Expr.plus
  split
  · exact absurd rfl (hC.ne_null ha)
  · exact absurd rfl (hC.ne_null ha)
  · exact absurd rfl (hC.ne_literal ha _)
  · rw [if_pos (by simp)]
    rfl

theorem plus_null (a : Expr S) : a + .null = a := by
  cases a <;> rfl

theorem minus_null (a : Expr S) : a - .null = a := by
  cases a <;> rfl

theorem null_minus (b : Expr S) : .null - b = .literal (-1) * b := by
  cases b <;> rfl

/-- A sum is a sum node, or lighter. -/
theorem descends_plus (hC : Homogeneous C) (ha : OrNull C a) (hb : OrNull C b) :
    Descends A (add a b) (a + b) := by
  rcases ha with rfl | ha
  · refine .inr ?_
    change b.weight A < 0 + b.weight A + 5
    omega
  rcases hb with rfl | hb
  · rw [plus_null]
    refine .inr ?_
    change a.weight A < a.weight A + 0 + 5
    omega
  rcases plus_cases (hC.ne_null ha) (hC.ne_null hb) with ⟨x, -, hx, -⟩ | rfl | heq
  · exact absurd hx (hC.ne_literal ha x)
  · rw [hC.plus_self ha]
    have h := weight_scalar_times_le (A := A) (k := .literal Scalar.two) hC rfl ha
    refine .inr ?_
    change _ < a.weight A + a.weight A + 5
    rw [weight] at h
    omega
  · exact .inl heq

/-- A difference is a difference node, or lighter. -/
theorem descends_minus (hC : Homogeneous C) (ha : OrNull C a) (hb : OrNull C b) :
    Descends A (sub a b) (a - b) := by
  rcases hb with rfl | hb
  · rw [minus_null]
    refine .inr ?_
    change a.weight A < a.weight A + 0 + 5
    omega
  rcases ha with rfl | ha
  · rw [null_minus]
    have h := weight_scalar_times_le (A := A) (k := .literal (-1)) hC rfl hb
    refine .inr ?_
    change _ < 0 + b.weight A + 5
    rw [weight] at h
    omega
  rcases hC.minus_eq ha hb with heq | heq
  · rw [heq]
    exact .inr (Nat.succ_pos _)
  · exact .inl heq

end Constructors

/-! ## Nodes over lighter operands -/

/-- A class whose members have a weight of their own, and all or none of them a differential. -/
structure Weighed (A : Weighing) (s : Bool) (C : Expr S → Prop) : Prop where
  homogeneous : Homogeneous C
  heavy : Heavy A C
  flag : ∀ e, C e → e.hasDifferential = s

theorem weighed_plain : Weighed A false (Plain : Expr S → Prop) :=
  ⟨homogeneous_plain, heavy_plain, fun _ h => h.hasDifferential_eq⟩

theorem weighed_linear : Weighed A true (Linear X : Expr S → Prop) :=
  ⟨homogeneous_linear, heavy_linear, fun _ h => h.hasDifferential_eq⟩

section Nodes

variable {C D : Expr S → Prop} {s t : Bool} {a a' b b' k k' : Expr S}

/-- A node over lighter operands is lighter, if its weight grows with theirs. -/
theorem Descends.node {f : Expr S → Expr S → Expr S} (hda : Descends A a a')
    (hdb : Descends A b b')
    (hf : a'.weight A ≤ a.weight A → b'.weight A ≤ b.weight A →
      a'.weight A < a.weight A ∨ b'.weight A < b.weight A →
        (f a' b').weight A < (f a b).weight A) : Descends A (f a b) (f a' b') := by
  by_cases hlt : a'.weight A < a.weight A ∨ b'.weight A < b.weight A
  · exact .inr (hf hda.le hdb.le hlt)
  · rw [not_or] at hlt
    rw [hda.resolve_right hlt.1, hdb.resolve_right hlt.2]
    exact descends_self _

theorem Descends.times (hC : Weighed A s C) (hD : Weighed A t D) (ha : C a) (hb : D b)
    (ha' : OrNull C a') (hb' : OrNull D b') (hda : Descends A a a') (hdb : Descends A b b') :
    Descends A (matMul a b) (a' * b') := by
  have hnull : Descends A (matMul a b) null :=
    .inr ((Nat.zero_le _).trans_lt (A.left_lt _ _ (hC.heavy a ha) (hD.heavy b hb)))
  rcases ha' with rfl | ha'
  · rw [null_times]
    exact hnull
  rcases hb' with rfl | hb'
  · rw [times_null]
    exact hnull
  refine (hda.node hdb fun hle hle' hlt => ?_).trans
    (descends_times hC.homogeneous hD.homogeneous hC.heavy hD.heavy ha' hb')
  rw [weight, weight, hC.flag a ha, hC.flag a' ha', hD.flag b hb, hD.flag b' hb']
  exact (A.product_mono (hC.heavy a' ha') (hD.heavy b' hb') hle hle').2 hlt

theorem Descends.plus (hC : Homogeneous C) (ha' : OrNull C a') (hb' : OrNull C b')
    (hda : Descends A a a') (hdb : Descends A b b') : Descends A (add a b) (a' + b') := by
  refine (hda.node hdb fun hle hle' hlt => ?_).trans (descends_plus hC ha' hb')
  simp only [weight]
  omega

theorem Descends.minus (hC : Homogeneous C) (ha' : OrNull C a') (hb' : OrNull C b')
    (hda : Descends A a a') (hdb : Descends A b b') : Descends A (sub a b) (a' - b') := by
  refine (hda.node hdb fun hle hle' hlt => ?_).trans (descends_minus hC ha' hb')
  simp only [weight]
  omega

theorem Descends.scaled (hC : Homogeneous C) (hk' : k'.isScalar = true) (hb : C b)
    (hb' : OrNull C b') (hdk : Descends A k k') (hdb : Descends A b b') :
    Descends A (scale k b) (k' * b') := by
  rcases hb' with rfl | hb'
  · rw [times_null]
    refine .inr ?_
    rw [weight_scale (hC.isScalar_eq hb)]
    exact Nat.succ_pos _
  refine (hdk.node hdb fun hle hle' hlt => ?_).trans (descends_scalar_times hC hk' hb')
  rw [weight_scale (hC.isScalar_eq hb), weight_scale (hC.isScalar_eq hb')]
  omega

/-- Matrices are not traces, and what is turned in a class is a member of it. -/
theorem Descends.transposed (hC : Weighed A s C) (hturn : ∀ e, C (transpose e) → C e)
    (htrace : ∀ e, ¬ C (trace e)) (ha : C a) (ha' : OrNull C a') (hda : Descends A a a') :
    Descends A (transpose a) a'.transposed := by
  rcases ha' with rfl | ha'
  · exact .inr ((Nat.zero_le _).trans_lt (A.lt_turned _ (hC.heavy a ha)))
  have hnode : Descends A (transpose a) (transpose a') := by
    rcases hda with rfl | hda
    · exact descends_self _
    · refine .inr ?_
      rw [weight, weight, hC.flag a ha, hC.flag a' ha']
      exact (A.turned_mono (hC.heavy a' ha') hda.le).2 hda
  refine hnode.trans ?_
  unfold Expr.transposed
  split
  · exact absurd rfl (hC.homogeneous.ne_null ha')
  · rename_i c
    have hc := hturn c ha'
    have hlt := A.lt_turned c.hasDifferential (hC.heavy c hc)
    refine .inr (hlt.trans ?_)
    exact A.lt_turned _ (hC.heavy _ ha')
  · exact absurd ha' (htrace _)
  · rw [if_neg (by simp [hC.homogeneous.isScalar_eq ha'])]
    exact descends_self _

theorem Descends.traced (hC : Weighed A s C) (ha : C a) (ha' : OrNull C a')
    (hda : Descends A a a') : Descends A (trace a) a'.traced := by
  rcases ha' with rfl | ha'
  · exact .inr ((Nat.zero_le _).trans_lt (A.lt_traced (hC.heavy a ha)))
  rw [traced_eq_trace (hC.homogeneous.isNull_eq ha') (hC.homogeneous.isScalar_eq ha')]
  rcases hda with rfl | hda
  · exact descends_self _
  · exact .inr ((A.traced_mono (hC.heavy a' ha') hda.le).2 hda)

end Nodes

end Expr

end TraceCalculus
