import TraceCalculus.Proofs.Weights

/-! # Rules make an expression lighter

The two weighings under which every rule makes the expressions lighter that it meets: one for the
first stage, where a differential is still anywhere in a product, and one for what comes after it,
where only terms `Tr(d(X))` and `Tr(G*d(X))` are left (`Stage.isolating_linear` and so on,
`Stage.collecting_readable`). No weighing does for both: the first stage takes a sum apart that the
last one puts together.

The replacement of a rule is built by constructors that simplify, and it is no heavier than its
instance without simplification (`Expr.Filled.descends_linear` and so on).
-/

set_option autoImplicit false

namespace TraceCalculus

variable {S : Type} [ExactScalar S] {X : String}

namespace Expr

/-! ## Instances of replacements -/

variable {A : Weighing} {P : Expr S → Prop} {a b : Expr S}

theorem Filled.descends_plain (h : Filled P a b) (ha : a.Plain) : Descends A a b := by
  induction h with
  | kept => exact descends_self _
  | add hl hr iha ihb =>
    exact .plus homogeneous_plain (hl.plain ha.1) (hr.plain ha.2) (iha ha.1) (ihb ha.2)
  | sub hl hr iha ihb =>
    exact .minus homogeneous_plain (hl.plain ha.1) (hr.plain ha.2) (iha ha.1) (ihb ha.2)
  | scale hk _ hr ihb =>
    exact .scaled homogeneous_plain hk ha.2 (hr.plain ha.2) (descends_self _) (ihb ha.2)
  | matMul hl hr iha ihb =>
    exact .times weighed_plain weighed_plain ha.1 ha.2 (hl.plain ha.1) (hr.plain ha.2) (iha ha.1)
      (ihb ha.2)
  | trace => cases ha
  | @transpose a _ h iha =>
    have hp : a.Plain := ha
    exact .transposed weighed_plain (fun _ h => h) (fun _ => id) hp (h.plain hp) (iha hp)

theorem Filled.descends_linear (h : Filled P a b) (ha : a.Linear X) : Descends A a b := by
  induction h with
  | kept => exact descends_self _
  | add hl hr iha ihb =>
    exact .plus homogeneous_linear (hl.linear ha.1) (hr.linear ha.2) (iha ha.1) (ihb ha.2)
  | sub hl hr iha ihb =>
    exact .minus homogeneous_linear (hl.linear ha.1) (hr.linear ha.2) (iha ha.1) (ihb ha.2)
  | scale hk _ hr ihb =>
    exact .scaled homogeneous_linear hk ha.2 (hr.linear ha.2) (descends_self _) (ihb ha.2)
  | matMul hl hr iha ihb =>
    rcases ha with ⟨ha, hb⟩ | ⟨ha, hb⟩
    · exact .times weighed_plain weighed_linear ha hb (hl.plain ha) (hr.linear hb)
        (hl.descends_plain ha) (ihb hb)
    · exact .times weighed_linear weighed_plain ha hb (hl.linear ha) (hr.plain hb) (iha ha)
        (hr.descends_plain hb)
  | trace => cases ha
  | @transpose a _ h iha =>
    have hl : a.Linear X := ha
    exact .transposed weighed_linear (fun _ h => h) (fun _ => id) hl (h.linear hl) (iha hl)

theorem Filled.descends_traced (h : Filled P a b) (ha : a.Traced X) : Descends A a b := by
  induction h with
  | kept => exact descends_self _
  | matMul | transpose => cases ha
  | add hl hr iha ihb =>
    exact .plus homogeneous_traced (hl.traced ha.1) (hr.traced ha.2) (iha ha.1) (ihb ha.2)
  | sub hl hr iha ihb =>
    exact .minus homogeneous_traced (hl.traced ha.1) (hr.traced ha.2) (iha ha.1) (ihb ha.2)
  | scale hk _ hr ihb =>
    exact .scaled homogeneous_traced hk ha.2 (hr.traced ha.2) (descends_self _) (ihb ha.2)
  | @trace a _ h =>
    have hl : a.Linear X := ha
    exact .traced weighed_linear hl (h.linear hl) (h.descends_linear hl)

end Expr

namespace Weighing

/-- The weighing of the first stage. A transpose or a product costs more in front of a
differential. -/
def isolating : Weighing where
  product
    | false, false, x, y => 2 * (x + y)
    | true, false, x, y => x * y + 1
    | _, true, x, y => x * y
  turned
    | false, x => 2 * x
    | true, x => x * x
  traced x := 2 * x
  product_left s t x y i hx hy hi := by
    cases s <;> cases t <;> simp only <;> nlinarith
  product_right s t x y i hx hy hi := by
    cases s <;> cases t <;> simp only <;> nlinarith
  turned_add t x i hx hi := by
    cases t <;> simp only <;> nlinarith
  traced_add hx hi := by omega
  left_lt s t x y hx hy := by
    cases s <;> cases t <;> simp only <;> nlinarith
  right_lt s t x y hx hy := by
    cases s <;> cases t <;> simp only <;> nlinarith
  lt_turned t x hx := by
    cases t <;> simp only <;> nlinarith
  lt_traced hx := by omega

/-- The weighing of the later stages. A transpose costs more the more it is of, and a sum costs more
inside a trace than outside. -/
def collecting : Weighing where
  product _ _ x y := (x + 1) * y
  turned _ x := 2 ^ x
  traced x := 2 * x + 200
  product_left s t x y i hx hy hi := by nlinarith
  product_right s t x y i hx hy hi := by nlinarith
  turned_add t x i hx hi := by
    have h : i < 2 ^ i := Nat.lt_two_pow_self
    have hx' : 2 ^ 1 ≤ 2 ^ x := Nat.pow_le_pow_right (by omega) (by omega)
    rw [pow_add]
    nlinarith
  traced_add hx hi := by omega
  left_lt s t x y hx hy := by nlinarith
  right_lt s t x y hx hy := by nlinarith
  lt_turned t x hx := Nat.lt_two_pow_self
  lt_traced hx := by omega

end Weighing

/-! ## Rules of the first stage -/

namespace Expr

variable {a b c s : Expr S}

theorem weight_plain_plain (ha : a.Plain) (hb : b.Plain) : (matMul a b).weight .isolating =
    2 * (a.weight .isolating + b.weight .isolating) := by
  rw [weight, ha.hasDifferential_eq, hb.hasDifferential_eq]
  rfl

theorem weight_plain_linear (ha : a.Plain) (hb : b.Linear X) : (matMul a b).weight .isolating =
    a.weight .isolating * b.weight .isolating := by
  rw [weight, ha.hasDifferential_eq, hb.hasDifferential_eq]
  rfl

theorem weight_linear_plain (ha : a.Linear X) (hb : b.Plain) : (matMul a b).weight .isolating =
    a.weight .isolating * b.weight .isolating + 1 := by
  rw [weight, ha.hasDifferential_eq, hb.hasDifferential_eq]
  rfl

theorem weight_transpose_plain (ha : a.Plain) :
    (transpose a).weight .isolating = 2 * a.weight .isolating := by
  rw [weight, ha.hasDifferential_eq]
  rfl

theorem weight_transpose_linear (ha : a.Linear X) :
    (transpose a).weight .isolating = a.weight .isolating * a.weight .isolating := by
  rw [weight, ha.hasDifferential_eq]
  rfl

/-- A factor counts for less outside a transpose. -/
theorem weight_transposeScale {A : Weighing} {C : Expr S → Prop} (hC : Homogeneous C)
    (hCA : Heavy A C) (hs : s.isScalar = true) (ha : C a) :
    (scale s (transpose a)).weight A < (transpose (scale s a)).weight A := by
  have h := A.turned_add a.hasDifferential (i := s.weight A + 3) (hCA a ha) (by omega)
  rw [weight_scale rfl, weight, weight, hasDifferential_scale hs,
    weight_scale (hC.isScalar_eq ha),
    show s.weight A + a.weight A + 3 = a.weight A + (s.weight A + 3) by omega]
  omega

/-- A factor counts for less outside a trace. -/
theorem weight_traceScale {A : Weighing} (ha : a.Linear X) :
    (scale s (trace a)).weight A < (trace (scale s a)).weight A := by
  have h := A.traced_add (i := s.weight A + 3) (heavy_linear (A := A) a ha) (by omega)
  rw [weight_scale rfl, weight, weight, weight_scale (homogeneous_linear.isScalar_eq ha),
    show s.weight A + a.weight A + 3 = a.weight A + (s.weight A + 3) by omega]
  omega

theorem weight_matMulAdd (ha : a.Plain) (hb : b.Linear X) (hc : c.Linear X) :
    (add (matMul a b) (matMul a c)).weight .isolating <
      (matMul a (add b c)).weight .isolating := by
  have := heavy_plain (A := .isolating) a ha
  rw [weight_plain_linear ha (show (add b c).Linear X from ⟨hb, hc⟩), weight, weight,
    weight_plain_linear ha hb, weight_plain_linear ha hc]
  nlinarith

theorem weight_addMatMul (ha : a.Linear X) (hb : b.Linear X) (hc : c.Plain) :
    (add (matMul a c) (matMul b c)).weight .isolating <
      (matMul (add a b) c).weight .isolating := by
  have := heavy_plain (A := .isolating) c hc
  rw [weight_linear_plain (show (add a b).Linear X from ⟨ha, hb⟩) hc, weight, weight,
    weight_linear_plain ha hc, weight_linear_plain hb hc]
  nlinarith

theorem weight_transposeAdd (ha : a.Linear X) (hb : b.Linear X) :
    (add (transpose a) (transpose b)).weight .isolating <
      (transpose (add a b)).weight .isolating := by
  have := heavy_linear (A := .isolating) a ha
  have := heavy_linear (A := .isolating) b hb
  rw [weight_transpose_linear (show (add a b).Linear X from ⟨ha, hb⟩), weight, weight,
    weight_transpose_linear ha, weight_transpose_linear hb]
  nlinarith

theorem weight_transposeMatMul (h : (matMul a b).Linear X) :
    (matMul (transpose b) (transpose a)).weight .isolating <
      (transpose (matMul a b)).weight .isolating := by
  have key : ∀ {p l : Nat}, 5 ≤ p → 5 ≤ l → l * l * (2 * p) + 1 < p * l * (p * l) := by
    intro p l hp hl
    calc l * l * (2 * p) + 1 < l * l * (2 * p) + l * l * p := by nlinarith
      _ = l * l * p * 3 := by ring
      _ ≤ l * l * p * p := Nat.mul_le_mul_left _ (by omega)
      _ = p * l * (p * l) := by ring
  rw [weight_transpose_linear h]
  rcases h with ⟨ha, hb⟩ | ⟨ha, hb⟩
  · rw [weight_plain_linear ha hb,
      weight_linear_plain (show (transpose b).Linear X from hb) (show (transpose a).Plain from ha),
      weight_transpose_plain ha, weight_transpose_linear hb]
    exact key (heavy_plain a ha) (heavy_linear b hb)
  · rw [weight_linear_plain ha hb,
      weight_plain_linear (show (transpose b).Plain from hb) (show (transpose a).Linear X from ha),
      weight_transpose_plain hb, weight_transpose_linear ha]
    have h := key (heavy_plain (A := .isolating) b hb) (heavy_linear (A := .isolating) a ha)
    nlinarith

theorem weight_trace : (trace a).weight .isolating = 2 * a.weight .isolating := rfl

theorem weight_rotate (ha : a.Linear X) (hb : b.Plain) :
    (trace (matMul b a)).weight .isolating < (trace (matMul a b)).weight .isolating := by
  rw [weight_trace, weight_trace, weight_linear_plain ha hb, weight_plain_linear hb ha]
  nlinarith

theorem weight_traceAdd :
    (add (trace a) (trace b)).weight .isolating < (trace (add a b)).weight .isolating := by
  rw [weight_trace, weight, weight, weight_trace, weight_trace]
  omega

theorem weight_turn (ha : a.Plain) (hb : b.Linear X) :
    (trace (matMul (transpose a) b)).weight .isolating <
      (trace (matMul a (transpose b))).weight .isolating := by
  have hp := heavy_plain (A := .isolating) a ha
  have hl := heavy_linear (A := .isolating) b hb
  rw [weight_trace, weight_trace, weight_plain_linear (show (transpose a).Plain from ha) hb,
    weight_plain_linear ha (show (transpose b).Linear X from hb), weight_transpose_plain ha,
    weight_transpose_linear hb]
  nlinarith [Nat.mul_le_mul hp hl]

theorem weight_traceTranspose (ha : a.Linear X) :
    (trace a).weight .isolating < (trace (transpose a)).weight .isolating := by
  have hl := heavy_linear (A := .isolating) a ha
  rw [weight_trace, weight_trace, weight_transpose_linear ha]
  nlinarith

theorem weight_associate (ha : a.Plain) (h : (matMul b c).Linear X) :
    (trace (matMul (matMul a b) c)).weight .isolating <
      (trace (matMul a (matMul b c))).weight .isolating := by
  have hp := heavy_plain (A := .isolating) a ha
  rw [weight_trace, weight_trace, weight_plain_linear ha h]
  rcases h with ⟨hb, hc⟩ | ⟨hb, hc⟩
  · have hq := heavy_plain (A := .isolating) b hb
    have hl := heavy_linear (A := .isolating) c hc
    rw [weight_plain_linear (show (matMul a b).Plain from ⟨ha, hb⟩) hc, weight_plain_plain ha hb,
      weight_plain_linear hb hc]
    generalize a.weight .isolating = p at *
    generalize b.weight .isolating = q at *
    have hpq : 2 * (p + q) < p * q := by nlinarith
    nlinarith
  · rw [weight_linear_plain (show (matMul a b).Linear X from .inl ⟨ha, hb⟩) hc,
      weight_plain_linear ha hb, weight_linear_plain hb hc]
    nlinarith

end Expr

namespace Stage

open TraceCalculus.Expr

variable {A : Weighing} {σ : Assignment S} {rule : Rule S}

theorem isolating_plain (hr : rule ∈ (isolating : List (Rule S))) (hf : rule.pattern.Faces σ)
    (h : (rule.pattern.instantiate σ).Plain) :
    (rule.replacement.instantiate σ).weight A < (rule.pattern.instantiate σ).weight A := by
  revert hf h
  revert rule
  simp only [isolating, List.forall_mem_cons, instantiate, Plain, Faces, List.not_mem_nil,
    false_imp_iff, implies_true, and_true, true_and]
  -- all rules but the last ask for a differential
  have hno : ∀ {e : Expr S} {p : Prop}, e.hasDifferential = true → e.Plain → p :=
    fun hd h => absurd hd h.not_hasDifferential
  exact ⟨fun hd h => hno hd h.1, fun hd h => hno hd h.2, fun hd h => hno hd h.1,
    fun hd h => hno hd h.2, fun hd h => hno hd h, fun hd h => hno hd h, fun hd h => hno hd h,
    fun _ h => weight_transposeScale homogeneous_plain heavy_plain h.1 h.2⟩

theorem isolating_linear (hr : rule ∈ (isolating : List (Rule S))) (hf : rule.pattern.Faces σ)
    (h : (rule.pattern.instantiate σ).Linear X) :
    (rule.replacement.instantiate σ).weight .isolating <
      (rule.pattern.instantiate σ).weight .isolating := by
  revert hf h
  revert rule
  simp only [isolating, List.forall_mem_cons, instantiate, Linear, Faces, List.not_mem_nil,
    false_imp_iff, implies_true, and_true, true_and]
  refine ⟨?_, ?_, ?_, ?_, ?_, ?_, ?_, ?_⟩
  · rintro hd (⟨h, -⟩ | ⟨⟨ha, hb⟩, hc⟩)
    · exact absurd hd (Plain.not_hasDifferential h)
    · exact weight_addMatMul ha hb hc
  · rintro hd (⟨ha, hb, hc⟩ | ⟨-, h⟩)
    · exact weight_matMulAdd ha hb hc
    · exact absurd hd (Plain.not_hasDifferential h)
  · rintro hd (⟨h, -⟩ | ⟨⟨ha, hb⟩, hc⟩)
    · exact absurd hd (Plain.not_hasDifferential h)
    · exact weight_addMatMul ha hb hc
  · rintro hd (⟨ha, hb, hc⟩ | ⟨-, h⟩)
    · exact weight_matMulAdd ha hb hc
    · exact absurd hd (Plain.not_hasDifferential h)
  · exact fun _ h => weight_transposeMatMul h
  · exact fun _ h => weight_transposeAdd h.1 h.2
  · exact fun _ h => weight_transposeAdd h.1 h.2
  · exact fun _ h => weight_transposeScale homogeneous_linear heavy_linear h.1 h.2

theorem isolating_traced (hr : rule ∈ (isolating : List (Rule S))) (hf : rule.pattern.Faces σ)
    (h : (rule.pattern.instantiate σ).Traced X) :
    (rule.replacement.instantiate σ).weight .isolating <
      (rule.pattern.instantiate σ).weight .isolating := by
  revert hf h
  revert rule
  simp only [isolating, List.forall_mem_cons, instantiate, Traced, Linear, Faces, List.not_mem_nil,
    false_imp_iff, implies_true, and_true, true_and]
  refine ⟨?_, ?_, ?_, ?_, ?_, ?_, ?_⟩
  · rintro hd (⟨h, -⟩ | ⟨ha, hb⟩)
    · exact absurd hd (Plain.not_hasDifferential h)
    · exact weight_rotate ha hb
  · exact fun _ _ => weight_traceAdd
  · exact fun _ _ => weight_traceAdd
  · rintro hd (⟨ha, hb⟩ | ⟨-, h⟩)
    · exact weight_turn ha hb
    · exact absurd hd (Plain.not_hasDifferential h)
  · exact fun _ h => weight_traceTranspose h
  · rintro hd (⟨ha, h⟩ | ⟨-, h⟩)
    · exact weight_associate ha h
    · exact absurd hd (Plain.not_hasDifferential h)
  · exact fun _ h => weight_traceScale h.2

end Stage

/-! ## Rules of the later stages -/

namespace Expr

variable {a b c g g' l l' s : Expr S}

theorem weight_matMul_collecting :
    (matMul a b).weight .collecting = (a.weight .collecting + 1) * b.weight .collecting := rfl

theorem weight_transpose_collecting :
    (transpose a).weight .collecting = 2 ^ a.weight .collecting := rfl

theorem weight_matMulMatMul (ha : a.Plain) (hc : c.Plain) :
    (matMul (matMul a b) c).weight .collecting < (matMul a (matMul b c)).weight .collecting := by
  have hp := heavy_plain (A := .collecting) a ha
  have hq := heavy_plain (A := .collecting) c hc
  simp only [weight_matMul_collecting]
  nlinarith

theorem weight_transpose_matMul (ha : a.Plain) (hb : b.Plain) :
    (matMul (transpose b) (transpose a)).weight .collecting <
      (transpose (matMul a b)).weight .collecting := by
  have hp := heavy_plain (A := .collecting) a ha
  have hq := heavy_plain (A := .collecting) b hb
  simp only [weight_matMul_collecting, weight_transpose_collecting]
  generalize a.weight .collecting = x at *
  generalize b.weight .collecting = y at *
  have hx : 1 ≤ 2 ^ x := Nat.one_le_two_pow
  have hy : 1 ≤ 2 ^ y := Nat.one_le_two_pow
  calc (2 ^ y + 1) * 2 ^ x < 2 ^ y * 2 ^ x * 4 := by nlinarith
    _ = 2 ^ (y + x + 2) := by ring
    _ ≤ 2 ^ ((x + 1) * y) := Nat.pow_le_pow_right (by omega) (by nlinarith)

theorem weight_transpose_add :
    (add (transpose a) (transpose b)).weight .collecting <
      (transpose (add a b)).weight .collecting := by
  rw [weight_transpose_collecting, weight, weight, weight_transpose_collecting,
    weight_transpose_collecting]
  generalize a.weight .collecting = x
  generalize b.weight .collecting = y
  have hx : 1 ≤ 2 ^ x := Nat.one_le_two_pow
  have hy : 1 ≤ 2 ^ y := Nat.one_le_two_pow
  rw [pow_add, pow_add]
  nlinarith

/-- What the trace of a product with a differential weighs. -/
theorem weight_term : (trace (matMul a (differential (.var X)))).weight .collecting =
    10 * a.weight .collecting + 210 := by
  change 2 * ((a.weight .collecting + 1) * 5) + 200 = _
  omega

/-- In front of a differential a factor counts ten times as much as in front of a trace. -/
theorem weight_scale_le (ha : a.Plain) (hs : s.isScalar = true) :
    10 * (scale s a).weight .collecting + 210 ≤
      (scale s (trace (matMul a (differential (.var X))))).weight .collecting + 36 := by
  have h1 := weight_le_one (A := .collecting) hs
  rw [weight_scale (homogeneous_plain.isScalar_eq ha), weight_scale rfl, weight_term]
  omega

/-- Two traces weigh more than one. -/
theorem weight_collected (hg : 10 * g.weight .collecting + 210 ≤ l.weight .collecting + 36)
    (hg' : 10 * g'.weight .collecting + 210 ≤ l'.weight .collecting + 36)
    (hc : c = differential (.var X)) :
    (trace (matMul (add g g') c)).weight .collecting < (add l l').weight .collecting := by
  rw [hc, weight_term, weight, weight]
  omega

end Expr

namespace Stage

open TraceCalculus.Expr

variable {σ : Assignment S} {rule : Rule S}

theorem collecting_plain {stage : Stage} (hr : rule ∈ stage.rules) (hf : rule.pattern.Faces σ)
    (h : (rule.pattern.instantiate σ).Plain) :
    (rule.replacement.instantiate σ).weight .collecting <
      (rule.pattern.instantiate σ).weight .collecting := by
  refine forall_rules (P := fun rule => rule.pattern.Faces σ →
    (rule.pattern.instantiate σ).Plain → (rule.replacement.instantiate σ).weight .collecting <
      (rule.pattern.instantiate σ).weight .collecting) (fun rule hr => isolating_plain hr) ?_ ?_ hr
    hf h
  · simp only [normalizing, List.forall_mem_cons, instantiate, Plain, List.not_mem_nil,
      false_imp_iff, implies_true, and_true]
    exact ⟨fun _ h => weight_matMulMatMul h.1 h.2.2, fun _ h => weight_transpose_matMul h.1 h.2,
      fun _ _ => weight_transpose_add, fun _ _ => weight_transpose_add⟩
  · simp only [collecting, List.forall_mem_cons, instantiate, Plain, List.not_mem_nil, and_false,
      false_imp_iff, implies_true, and_true]

theorem collecting_readable {stage : Stage} (hr : rule ∈ stage.rules) (hf : rule.pattern.Faces σ)
    (h : (rule.pattern.instantiate σ).Readable X) :
    (rule.replacement.instantiate σ).weight .collecting <
      (rule.pattern.instantiate σ).weight .collecting := by
  refine forall_rules (P := fun rule => rule.pattern.Faces σ →
    (rule.pattern.instantiate σ).Readable X → (rule.replacement.instantiate σ).weight .collecting <
      (rule.pattern.instantiate σ).weight .collecting) ?_ ?_ ?_ hr hf h
  · -- only a rotation and a scalar in a trace can be about readable expressions
    simp only [isolating, List.forall_mem_cons, instantiate, Readable, Multiple, Core, Monomial,
      List.not_mem_nil, false_imp_iff, implies_true, and_true, true_and, or_false, false_or,
      and_false, Faces]
    refine ⟨fun hd h => absurd hd h.1.not_hasDifferential, fun _ h => ?_⟩
    rcases h.2 with hm | hm
    · exact weight_traceScale hm.linear
    · exact weight_traceScale hm.linear
  · simp only [normalizing, List.forall_mem_cons, instantiate, Readable, Multiple, Core, Monomial,
      List.not_mem_nil, false_imp_iff, implies_true, and_true, or_false]
  · have hterm : ∀ {a c : Expr S}, (matMul a c).Core X → a.Plain ∧ c = differential (.var X) ∧
        10 * a.weight .collecting + 210 ≤ (trace (matMul a c)).weight .collecting + 36 := by
      intro a c h
      obtain ⟨ha, -, rfl⟩ := h.plain_or_eq
      exact ⟨ha, rfl, weight_term.ge.trans (Nat.le_add_right _ _)⟩
    have hscaled : ∀ {s a c : Expr S}, s.isScalar = true → (matMul a c).Core X →
        10 * (scale s a).weight .collecting + 210 ≤
          (scale s (trace (matMul a c))).weight .collecting + 36 := by
      intro s a c hs h
      obtain ⟨ha, rfl, -⟩ := hterm h
      exact weight_scale_le ha hs
    simp only [collecting, List.forall_mem_cons, instantiate, Readable, Multiple,
      List.not_mem_nil, false_imp_iff, implies_true, and_true]
    refine ⟨?_, ?_, ?_, ?_, ?_, ?_, ?_, ?_, ?_, ?_⟩ <;> rintro - h
    · exact weight_collected (hterm h.1).2.2 (hterm h.2).2.2 (hterm h.1).2.1
    · exact weight_collected (hterm h.1).2.2 (hterm h.2).2.2 (hterm h.1).2.1
    · exact weight_collected (hscaled h.1.1 h.1.2) (hterm h.2).2.2 (hterm h.2).2.1
    · exact weight_collected (hterm h.1).2.2 (hscaled h.2.1 h.2.2) (hterm h.1).2.1
    · exact weight_collected (hscaled h.1.1 h.1.2) (hscaled h.2.1 h.2.2) (hterm h.1.2).2.1
    · exact weight_collected (hscaled h.1.1 h.1.2) (hterm h.2).2.2 (hterm h.2).2.1
    · exact weight_collected (hterm h.1).2.2 (hscaled h.2.1 h.2.2) (hterm h.1).2.1
    · exact weight_collected (hscaled h.1.1 h.1.2) (hscaled h.2.1 h.2.2) (hterm h.1.2).2.1
    · rcases h with h | h <;> cases h
    · rcases h with h | h <;> cases h

end Stage

end TraceCalculus
