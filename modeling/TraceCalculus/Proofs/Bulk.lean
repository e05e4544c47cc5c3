import TraceCalculus.Proofs.RuleWeights
import TraceCalculus.Proofs.Simplified

/-! # Bulk and rank

The bulk of an expression is about the number of its leaves once all products are multiplied out. No
rule changes it, whichever way it goes: products that are distributed have the bulk of the product,
and traces that are joined that of the sum. A constructor keeps it, too, or folds something and makes
it smaller.

Among expressions of one bulk the rank tells how far the top node is from where rules leave it: a
product over a product on its right ranks above a product, that above a sum, and a scaled expression
ranks below all of them. A rule that is about a product or a transpose leads to a lower rank, and no
rule leads to a higher one (`Stage.sinks_output`). So a run that comes back to an expression has only
been at expressions of one bulk and of no lower rank, for which there is `Expr.Sinks`.
-/

set_option autoImplicit false

namespace TraceCalculus

variable {S : Type}

namespace Expr

/-- The number of leaves of the expression when it is multiplied out. What is subtracted and what is
a literal counts twice. -/
def bulk : Expr S → Nat
  | .null => 0
  | .literal _ => 2
  | .var _ | .scalarVar _ | .differential _ => 1
  | .add a b => a.bulk + b.bulk
  | .sub a b => a.bulk + 2 * b.bulk
  | .scale a b | .matMul a b => a.bulk * b.bulk
  | .trace a | .transpose a => a.bulk

/-- How far the top node is from where rules leave it. -/
def rank : Expr S → Nat
  | .var _ | .scalarVar _ | .literal _ | .null | .differential _ => 0
  | .scale k _ => if k.isScalar then 1 else 4
  | .add _ _ | .sub _ _ | .trace _ => 2
  | .matMul _ b => if b.rank ≤ 2 then 3 else 4
  | .transpose a => if a.rank = 0 then 2 else 5

/-- From `a` to `b` the bulk goes down, or it stays and the rank does not go up. -/
def Sinks (a b : Expr S) : Prop := b.bulk < a.bulk ∨ b.bulk = a.bulk ∧ b.rank ≤ a.rank

variable {a a' b b' c e k : Expr S}

theorem sinks_self (a : Expr S) : Sinks a a := .inr ⟨rfl, Nat.le_refl _⟩

theorem Sinks.trans (h : Sinks a b) (h' : Sinks b c) : Sinks a c := by
  unfold Sinks at *
  omega

theorem Sinks.bulk_le (h : Sinks a b) : b.bulk ≤ a.bulk := by
  unfold Sinks at h
  omega

theorem sinks_of_le (h : b.bulk ≤ a.bulk) (hr : a.bulk ≤ b.bulk → b.rank ≤ a.rank) : Sinks a b := by
  rcases Nat.lt_or_ge b.bulk a.bulk with hlt | hge
  · exact .inl hlt
  · exact .inr ⟨Nat.le_antisymm h hge, hr hge⟩

theorem Sinks.rank_le (h : Sinks a b) (hb : a.bulk ≤ b.bulk) : b.rank ≤ a.rank := by
  unfold Sinks at h
  omega

theorem rank_le_five (e : Expr S) : e.rank ≤ 5 := by
  cases e <;> simp only [rank] <;> try split
  all_goals omega

theorem rank_le_one_of_isScalar (h : e.isScalar = true) : e.rank ≤ 1 := by
  cases e with
  | literal | scalarVar => exact Nat.zero_le 1
  | scale k b =>
    simp only [isScalar, Bool.and_eq_true] at h
    simp [rank, h.1]
  | _ => cases h

theorem bulk_pos_of_hasNull (h : e.hasNull = false) : 0 < e.bulk := by
  induction e with
  | var | scalarVar | literal | differential => simp [bulk]
  | null => cases h
  | add a b iha | sub a b iha =>
    simp only [hasNull, Bool.or_eq_false_iff] at h
    have := iha h.1
    simp only [bulk]
    omega
  | scale a b iha ihb | matMul a b iha ihb =>
    simp only [hasNull, Bool.or_eq_false_iff] at h
    exact Nat.mul_pos (iha h.1) (ihb h.2)
  | trace a iha | transpose a iha => exact iha h

variable [Scalar S]

theorem Congruent.bulk_eq [CongruentScalar S] (h : a.Congruent b) : a.bulk = b.bulk := by
  induction h with
  | add _ _ iha ihb | sub _ _ iha ihb | scale _ _ iha ihb | matMul _ _ iha ihb =>
    simp only [bulk, iha, ihb]
  | trace _ ih | transpose _ ih => exact ih
  | _ => rfl

theorem Congruent.rank_eq [CongruentScalar S] (h : a.Congruent b) : a.rank = b.rank := by
  induction h with
  | scale ha => simp only [rank, ha.isScalar_eq]
  | matMul _ _ _ ihb => simp only [rank, ihb]
  | transpose _ ih => simp only [rank, ih]
  | _ => rfl

theorem Sinks.congr_left [CongruentScalar S] (h : Sinks a b) (ha : a.Congruent a') :
    Sinks a' b := by
  unfold Sinks at *
  rwa [← ha.bulk_eq, ← ha.rank_eq]

theorem Congruent.kind_eq [CongruentScalar S] (h : a.Congruent b) : a.kind = b.kind := by
  cases h <;> rfl

theorem Congruent.hasNull_eq [CongruentScalar S] (h : a.Congruent b) : a.hasNull = b.hasNull := by
  induction h with
  | add _ _ iha ihb | sub _ _ iha ihb | scale _ _ iha ihb | matMul _ _ iha ihb =>
    simp only [hasNull, iha, ihb]
  | trace _ ih | transpose _ ih => exact ih
  | _ => rfl

/-- In a neat expression the zero element stands nowhere but at the top. -/
theorem Neat.hasNull_eq (h : e.Neat) : e.hasNull = e.isNull := by
  induction e with
  | var | scalarVar | literal | null | differential => rfl
  | add a b iha ihb | sub a b iha ihb =>
    rw [hasNull, iha h.1, ihb h.2.1, h.2.2.left, h.2.2.right]
    rfl
  | scale a b iha ihb | matMul a b iha ihb =>
    rw [hasNull, iha h.1, ihb h.2.1, h.2.2.left, h.2.2.right]
    rfl
  | trace a ih =>
    rw [hasNull, ih h.1, (isTraceable_iff.1 h.2).1]
    rfl
  | transpose a ih =>
    rw [hasNull, ih h.1, (isTraceable_iff.1 (isTraceable_of_isTurnable h.2)).1]
    rfl

/-! ## Products -/

theorem bulk_asOperand (a : Expr S) : a.asOperand.bulk = a.bulk := by
  cases a <;> rfl

theorem Product.bulk_le (h : Product a b c) : c.bulk ≤ a.bulk * b.bulk := by
  refine h.measure_le (m := bulk) (n := bulk) (fun _ => Nat.le_refl _) (fun _ _ => rfl)
    (fun _ _ => rfl) (fun _ _ => rfl) bulk_asOperand (fun _ => Nat.zero_le _)
    (fun _ _ => by simp [bulk]) fun x b => ?_
  simp only [bulk]
  omega

omit [Scalar S] in
theorem bulk_pos_of_isScalar (h : k.isScalar = true) : 0 < k.bulk := by
  induction k with
  | literal | scalarVar => simp [bulk]
  | scale a b iha ihb =>
    simp only [isScalar, Bool.and_eq_true] at h
    exact Nat.mul_pos (iha h.1) (ihb h.2)
  | _ => cases h

variable [NumericScalar S]

/-- Where nothing is folded, a product with a scalar on the left is scaled. -/
theorem Product.bulk_lt_or_of_scalar (h : Product k b c) (hk : k.isScalar = true) (hn : k.Neat)
    (hb : b.Neat) (hp : 0 < b.bulk) : c.bulk < k.bulk * b.bulk ∨ c.rank ≤ 1 := by
  have hpk := bulk_pos_of_isScalar hk
  induction h with
  | nullLeft => cases hk
  | nullRight => cases hp
  | fold => exact .inl (by simp [bulk])
  | oneLeft => exact .inl (by simp only [bulk]; omega)
  | oneRight => exact .inl (by simp only [bulk]; omega)
  | swap _ _ _ _ ih =>
    rw [Nat.mul_comm]
    exact ih rfl trivial hn hpk (bulk_pos_of_isScalar rfl)
  | @mergeLeft a s r t c _ _ ht _ _ ihc =>
    have hs : s.isScalar = true := hb.2.2.scalar
    have htk := ht.isScalar hk hs
    have hr : 0 < r.bulk := Nat.pos_of_mul_pos_left hp
    refine (ihc htk (ht.neat hn hb.1) hb.2.1 hr (bulk_pos_of_isScalar htk)).imp_left fun h => ?_
    calc c.bulk < t.bulk * r.bulk := h
      _ ≤ a.bulk * s.bulk * r.bulk := Nat.mul_le_mul_right _ ht.bulk_le
      _ = a.bulk * (s.bulk * r.bulk) := Nat.mul_assoc _ _ _
  | @scaleLeft a b =>
    have hrank : (scale a.asOperand b).rank = 1 := by simp [rank, hk]
    exact .inr hrank.le
  | mergeRight _ ha | scaleRight _ ha | mergeBoth _ ha | hoistLeft _ ha | hoistRight _ ha
  | matMul _ ha =>
    rw [ha] at hk
    cases hk

/-- Where nothing is folded, a product is scaled or is the matrix product. -/
theorem Product.bulk_lt_or (h : Product a b c) (ha : a.Neat) (hb : b.Neat) (hpa : 0 < a.bulk)
    (hpb : 0 < b.bulk) : c.bulk < a.bulk * b.bulk ∨ c.rank ≤ 1 ∨
      a.isScalar = false ∧ b.isScalar = false ∧ c = .matMul a b := by
  have hpos := Nat.mul_pos hpa hpb
  -- a factor `t` that has come to the front of a product
  have key : ∀ {t m c : Expr S} {n : Nat}, Product t m c → t.isScalar = true → t.Neat → m.Neat →
      0 < n → t.bulk * m.bulk ≤ n → c.bulk < n ∨ c.rank ≤ 1 := by
    intro t m c n h ht htn hm hpn hn
    rcases Nat.eq_zero_or_pos m.bulk with hz | hpm
    · have := h.bulk_le
      rw [hz, Nat.mul_zero] at this
      exact .inl (Nat.lt_of_le_of_lt this hpn)
    · exact (h.bulk_lt_or_of_scalar ht htn hm hpm).imp_left fun h => Nat.lt_of_lt_of_le h hn
  cases h with
  | nullLeft => cases hpa
  | nullRight => cases hpb
  | fold => exact .inl (by simp [bulk])
  | oneLeft => exact .inl (by simp only [bulk]; omega)
  | oneRight => exact .inl (by simp only [bulk]; omega)
  | swap _ _ _ h => exact (key h rfl trivial ha hpos (Nat.mul_comm _ _).le).imp_right .inl
  | mergeLeft hp hk ht hc =>
    exact (key (.mergeLeft hp hk ht hc) hk ha hb hpos (Nat.le_refl _)).imp_right .inl
  | scaleLeft hp hk hs =>
    exact (key (.scaleLeft hp hk hs) hk ha hb hpos (Nat.le_refl _)).imp_right .inl
  | @mergeRight s l _ t _ _ _ hk ht hc =>
    refine (key hc (ht.isScalar ha.2.2.scalar hk) (ht.neat ha.1 hb) ha.2.1 hpos ?_).imp_right .inl
    calc t.bulk * l.bulk ≤ s.bulk * b.bulk * l.bulk := Nat.mul_le_mul_right _ ht.bulk_le
      _ = s.bulk * l.bulk * b.bulk := Nat.mul_right_comm _ _ _
  | scaleRight _ _ hk =>
    have hrank : (scale b a).rank = 1 := by simp [rank, hk]
    exact .inr (.inl hrank.le)
  | @mergeBoth s l u r t m _ _ _ _ ht hm hc =>
    refine (key hc (ht.isScalar ha.2.2.scalar hb.2.2.scalar) (ht.neat ha.1 hb.1)
      (hm.neat ha.2.1 hb.2.1) hpos ?_).imp_right .inl
    calc t.bulk * m.bulk ≤ s.bulk * u.bulk * (l.bulk * r.bulk) := Nat.mul_le_mul ht.bulk_le hm.bulk_le
      _ = s.bulk * l.bulk * (u.bulk * r.bulk) := Nat.mul_mul_mul_comm _ _ _ _
  | @hoistLeft s l _ m _ _ _ _ _ hm hc =>
    refine (key hc ha.2.2.scalar ha.1 (hm.neat ha.2.1 hb) hpos ?_).imp_right .inl
    calc s.bulk * m.bulk ≤ s.bulk * (l.bulk * b.bulk) := Nat.mul_le_mul_left _ hm.bulk_le
      _ = s.bulk * l.bulk * b.bulk := (Nat.mul_assoc _ _ _).symm
  | @hoistRight _ s r m _ _ _ _ _ hm hc =>
    refine (key hc hb.2.2.scalar hb.1 (hm.neat ha hb.2.1) hpos ?_).imp_right .inl
    calc s.bulk * m.bulk ≤ s.bulk * (a.bulk * r.bulk) := Nat.mul_le_mul_left _ hm.bulk_le
      _ = a.bulk * (s.bulk * r.bulk) := Nat.mul_left_comm _ _ _
  | matMul _ hka hkb => exact .inr (.inr ⟨hka, hkb, rfl⟩)

/-! ## Sums and differences -/

theorem Plus.bulk_le (h : Plus a b c) : c.bulk ≤ a.bulk + b.bulk := by
  cases h with
  | nullLeft | nullRight | fold => simp [bulk]
  | double _ heq hc =>
    have hbulk := (Congruent.of_beq heq).bulk_eq
    have := hc.bulk_le
    simp only [bulk] at this
    omega
  | add => exact (congrArg₂ _ (bulk_asOperand a) (bulk_asOperand b)).le

omit [NumericScalar S] in
theorem Minus.bulk_le (h : Minus a b c) : c.bulk ≤ a.bulk + 2 * b.bulk := by
  cases h with
  | nullRight | cancel | fold => simp [bulk]
  | nullLeft _ hc =>
    have := hc.bulk_le
    simpa [bulk] using this
  | sub => exact (congrArg₂ _ (bulk_asOperand a) (congrArg (2 * ·) (bulk_asOperand b))).le

/-- Where nothing is folded, a sum is a sum or scaled. -/
theorem Plus.rank_le (h : Plus a b c) (ha : a.Neat) (hpa : 0 < a.bulk) (hpb : 0 < b.bulk)
    (hc : a.bulk + b.bulk ≤ c.bulk) : c.rank ≤ 2 := by
  cases h with
  | nullLeft => cases hpa
  | nullRight => cases hpb
  | fold => exact absurd hc (by simp [bulk])
  | double _ heq h =>
    have hbulk := (Congruent.of_beq heq).bulk_eq
    rcases h.bulk_lt_or_of_scalar rfl trivial ha hpa with h | h
    · simp only [bulk] at h
      omega
    · omega
  | add => exact Nat.le_refl 2

omit [NumericScalar S] in
/-- Where nothing is folded, a difference is a difference. -/
theorem Minus.rank_le (h : Minus a b c) (hpa : 0 < a.bulk) (hpb : 0 < b.bulk)
    (hc : a.bulk + 2 * b.bulk ≤ c.bulk) : c.rank ≤ 2 := by
  cases h with
  | nullRight => cases hpb
  | nullLeft => cases hpa
  | cancel =>
    simp only [bulk] at hc
    omega
  | fold => exact absurd hc (by simp [bulk])
  | sub => exact Nat.le_refl 2

/-! ## Traces and transposes -/

omit [Scalar S] [NumericScalar S] in
theorem Tracing.bulk_eq (h : Tracing a c) : c.bulk = a.bulk := by
  cases h <;> rfl

omit [Scalar S] [NumericScalar S] in
theorem Tracing.rank_le (h : Tracing a c) : c.rank ≤ 2 := by
  cases h with
  | null => exact Nat.zero_le 2
  | scalar h => exact (rank_le_one_of_isScalar h).trans (by omega)
  | trace => exact Nat.le_refl 2

omit [Scalar S] [NumericScalar S] in
theorem Transposition.bulk_eq (h : Transposition a c) : c.bulk = a.bulk := by
  cases h <;> rfl

/-! ## Nodes over operands that sink -/

/-- Where nothing is folded, both operands have kept their bulk. -/
theorem bulk_eq_of_mul_le {x y x' y' n : Nat} (hx : 0 < x) (hy : 0 < y) (hxx : x' ≤ x) (hyy : y' ≤ y)
    (hn : n ≤ x' * y') (h : x * y ≤ n) : x' = x ∧ y' = y := by
  have hle := h.trans hn
  constructor
  · by_contra hne
    have := Nat.mul_lt_mul_of_lt_of_le (a := x') (c := x) (by omega) hyy hy
    omega
  · by_contra hne
    have := Nat.mul_lt_mul_of_le_of_lt (b := y') (d := y) hxx (by omega) hx
    omega

theorem Sinks.times (ha : Sinks a a') (hb : Sinks b b') (hpa : 0 < a.bulk) (hpb : 0 < b.bulk)
    (hna : a'.Neat) (hnb : b'.Neat) : Sinks (.matMul a b) (a' * b') := by
  have hle := (product_times a' b').bulk_le
  refine sinks_of_le (hle.trans (Nat.mul_le_mul ha.bulk_le hb.bulk_le)) fun hge => ?_
  obtain ⟨hea, heb⟩ := bulk_eq_of_mul_le hpa hpb ha.bulk_le hb.bulk_le hle hge
  have hrank : 3 ≤ (matMul a b).rank := by
    simp only [rank]
    split <;> omega
  rcases (product_times a' b').bulk_lt_or hna hnb (by omega) (by omega) with h | h | ⟨-, -, h⟩
  · rw [hea, heb] at h
    exact absurd h (Nat.not_lt_of_le hge)
  · omega
  · have hrb := hb.rank_le heb.ge
    rw [h]
    simp only [rank]
    split <;> split <;> omega

theorem Sinks.scaled (ha : Sinks a a') (hb : Sinks b b') (hpa : 0 < a.bulk) (hpb : 0 < b.bulk)
    (hna : a'.Neat) (hnb : b'.Neat) (hk : a'.isScalar = true) : Sinks (.scale a b) (a' * b') := by
  have hle := (product_times a' b').bulk_le
  refine sinks_of_le (hle.trans (Nat.mul_le_mul ha.bulk_le hb.bulk_le)) fun hge => ?_
  obtain ⟨hea, heb⟩ := bulk_eq_of_mul_le hpa hpb ha.bulk_le hb.bulk_le hle hge
  have hrank : 1 ≤ (scale a b).rank := by
    simp only [rank]
    split <;> omega
  rcases (product_times a' b').bulk_lt_or_of_scalar hk hna hnb (by omega) with h | h
  · rw [hea, heb] at h
    exact absurd h (Nat.not_lt_of_le hge)
  · omega

theorem Sinks.plus (ha : Sinks a a') (hb : Sinks b b') (hpa : 0 < a.bulk) (hpb : 0 < b.bulk)
    (hna : a'.Neat) : Sinks (.add a b) (a' + b') := by
  have hle := (plus_add a' b').bulk_le
  have hla := ha.bulk_le
  have hlb := hb.bulk_le
  refine sinks_of_le (by simp only [bulk]; omega) fun hge => ?_
  simp only [bulk] at hge
  exact (plus_add a' b').rank_le hna (by omega) (by omega) (by omega)

omit [NumericScalar S] in
theorem Sinks.minus (ha : Sinks a a') (hb : Sinks b b') (hpa : 0 < a.bulk) (hpb : 0 < b.bulk) :
    Sinks (.sub a b) (a' - b') := by
  have hle := (minus_sub a' b').bulk_le
  have hla := ha.bulk_le
  have hlb := hb.bulk_le
  refine sinks_of_le (by simp only [bulk]; omega) fun hge => ?_
  simp only [bulk] at hge
  exact (minus_sub a' b').rank_le (by omega) (by omega) (by omega)

omit [Scalar S] [NumericScalar S] in
theorem Sinks.traced (ha : Sinks a a') : Sinks (.trace a) a'.traced := by
  have ht := tracing_traced a'
  exact sinks_of_le (ht.bulk_eq.trans_le ha.bulk_le) fun _ => ht.rank_le

omit [Scalar S] [NumericScalar S] in
theorem Sinks.transposed (ha : Sinks a a') : Sinks (.transpose a) a'.transposed := by
  have ht := transposition_transposed a'
  refine sinks_of_le (ht.bulk_eq.trans_le ha.bulk_le) fun hge => ?_
  have hr := ha.rank_le (hge.trans_eq ht.bulk_eq)
  generalize a'.transposed = c at ht
  simp only [rank]
  cases ht with
  | null => exact Nat.zero_le _
  | turnBack =>
    have := rank_le_five c
    simp only [rank] at hr
    split at hr <;> split <;> omega
  | trace =>
    simp only [rank]
    split <;> omega
  | scalar h =>
    have := rank_le_one_of_isScalar h
    split <;> omega
  | transpose =>
    simp only [rank]
    split <;> split <;> omega

/-! ## What rules do -/

theorem Filled.sinks {a b : Expr S} (h : Filled Neat a b) (hn : a.hasNull = false) : Sinks a b := by
  induction h with
  | kept => exact sinks_self _
  | add hl _ iha ihb =>
    simp only [hasNull, Bool.or_eq_false_iff] at hn
    exact (iha hn.1).plus (ihb hn.2) (bulk_pos_of_hasNull hn.1) (bulk_pos_of_hasNull hn.2) hl.neat
  | sub _ _ iha ihb =>
    simp only [hasNull, Bool.or_eq_false_iff] at hn
    exact (iha hn.1).minus (ihb hn.2) (bulk_pos_of_hasNull hn.1) (bulk_pos_of_hasNull hn.2)
  | scale hk hneat hr ihb =>
    simp only [hasNull, Bool.or_eq_false_iff] at hn
    exact (sinks_self _).scaled (ihb hn.2) (bulk_pos_of_hasNull hn.1) (bulk_pos_of_hasNull hn.2)
      hneat hr.neat hk
  | matMul hl hr iha ihb =>
    simp only [hasNull, Bool.or_eq_false_iff] at hn
    exact (iha hn.1).times (ihb hn.2) (bulk_pos_of_hasNull hn.1) (bulk_pos_of_hasNull hn.2) hl.neat
      hr.neat
  | trace _ iha => exact (iha hn).traced
  | transpose _ iha => exact (iha hn).transposed

end Expr

namespace Stage

variable {stage : Stage} {rule : Rule S} {σ : Assignment S}

/-- Rules keep the bulk. -/
theorem bulk_replacement (hr : rule ∈ stage.rules) :
    (rule.replacement.instantiate σ).bulk = (rule.pattern.instantiate σ).bulk := by
  refine forall_rules (P := fun rule =>
    (rule.replacement.instantiate σ).bulk = (rule.pattern.instantiate σ).bulk) ?_ ?_ ?_ hr <;>
    simp only [isolating, normalizing, collecting, List.forall_mem_cons, Expr.instantiate,
      Expr.bulk, List.not_mem_nil, false_imp_iff, implies_true, and_true, true_and]
  all_goals and_intros <;> ring

/-- No rule leads to a higher rank, and one that is about a product or a transpose leads to a lower
one. -/
theorem rank_replacement (hr : rule ∈ stage.rules) (hf : rule.pattern.Faces σ)
    (hc : ∀ a b c, rule.pattern.instantiate σ = .matMul a (.matMul b c) → c.rank ≤ 2) :
    (rule.replacement.instantiate σ).rank ≤ (rule.pattern.instantiate σ).rank ∧
      (3 ≤ (rule.pattern.instantiate σ).rank →
        (rule.replacement.instantiate σ).rank < (rule.pattern.instantiate σ).rank) := by
  revert hf hc
  refine forall_rules (P := fun rule => rule.pattern.Faces σ →
    (∀ a b c, rule.pattern.instantiate σ = .matMul a (.matMul b c) → c.rank ≤ 2) →
    (rule.replacement.instantiate σ).rank ≤ (rule.pattern.instantiate σ).rank ∧
      (3 ≤ (rule.pattern.instantiate σ).rank →
        (rule.replacement.instantiate σ).rank < (rule.pattern.instantiate σ).rank)) ?_ ?_ ?_ hr <;>
    simp only [isolating, normalizing, collecting, List.forall_mem_cons, Expr.instantiate,
      Expr.rank, Expr.Faces, List.not_mem_nil, false_imp_iff, implies_true, and_true]
  all_goals grind

variable [Scalar S] [NumericScalar S] {e : Expr S} {m : RuleMatch S}

/-- No rule is about a leaf, a differential or a scaled expression. -/
theorem kind_of_mem_ruleMatches (hm : m ∈ ruleMatches e stage.rules) :
    e.kind ∈ [Expr.Kind.add, .sub, .matMul, .trace, .transpose] := by
  obtain ⟨hr, hmatch⟩ := mem_ruleMatches hm
  rw [← (Expr.congruent_of_matchAgainst hmatch).kind_eq]
  exact kind_pattern m.assignment hr

theorem isScalar_of_mem_ruleMatches (hm : m ∈ ruleMatches e stage.rules) : e.isScalar = false := by
  have hkind := kind_of_mem_ruleMatches hm
  cases e <;> first | rfl | simp [Expr.kind] at hkind

/-- What a rule makes of a neat expression, beside the instance of its replacement. -/
theorem filled_of_mem_ruleMatches (he : e.Neat) (hm : m ∈ ruleMatches e stage.rules) :
    Expr.Filled Expr.Neat (m.rule.replacement.instantiate m.assignment) m.output := by
  obtain ⟨hr, hmatch⟩ := mem_ruleMatches hm
  have hnil : Assignment.All Expr.Neat ([] : Assignment S) := nofun
  rw [m.output_eq]
  exact Expr.filled_subst Expr.neat_of_leaf (hnil.matchFrom Expr.Neat.of_mem_children he hmatch)
    (fillable_replacement hr (Expr.faces_of_matchAgainst hmatch))

/-- A rule leads to an expression of no more bulk and rank, and to less where the rank is that of a
product or of a transpose that can move down. -/
theorem sinks_output (he : e.Neat) (hc : ∀ a b c, e = .matMul a (.matMul b c) → c.rank ≤ 2)
    (hm : m ∈ ruleMatches e stage.rules) :
    Expr.Sinks e m.output ∧ (3 ≤ e.rank → e.bulk ≤ m.output.bulk → m.output.rank < e.rank) := by
  obtain ⟨hr, hmatch⟩ := mem_ruleMatches hm
  have hf := Expr.faces_of_matchAgainst hmatch
  have hcong := Expr.congruent_of_matchAgainst hmatch
  have hn : (m.rule.pattern.instantiate m.assignment).hasNull = false := by
    rw [hcong.hasNull_eq, he.hasNull_eq]
    have hkind := kind_of_mem_ruleMatches hm
    cases e <;> first | rfl | simp [Expr.kind] at hkind
  have hfilled := (filled_of_mem_ruleMatches he hm).sinks (hasNull_replacement hr hn)
  have hbulk := (bulk_replacement (σ := m.assignment) hr).trans hcong.bulk_eq
  obtain ⟨hle, hlt⟩ := rank_replacement hr hf (fun a b c heq => by
    rw [heq] at hcong
    cases hcong with
    | matMul _ h =>
      cases h with
      | matMul _ h => exact h.rank_eq ▸ hc _ _ _ rfl)
  rw [hcong.rank_eq] at hle hlt
  unfold Expr.Sinks at hfilled ⊢
  omega

end Stage

end TraceCalculus
